import Navy.Proofs.LiballocPlacing

/-! The four places where `liballoc_malloc` puts a chunk: each hangs it where its case says. -/

namespace Navy.Liballoc
open FirstFit LinkedList Outcome

variable {mem : Bytes} {block : Block} {left right pre post : List Chunk} {chunk other new min next : Chunk}
  {heap : Liballoc}

/-- What is stored in the members of a chunk comes back as it is. -/
structure Kept (base : Nat) (chunk : Chunk) : Prop where
  next : chunk.place % 256 ^ (MinorField.field .next).count = chunk.place
  prev : chunk.place % 256 ^ (MinorField.field .prev).count = chunk.place
  owner : base % 256 ^ (MinorField.field .block).count = base
  size : chunk.size % 256 ^ (MinorField.field .size).count = chunk.size
  request : chunk.request % 256 ^ (MinorField.field .reqSize).count = chunk.request
  first : chunk.place % 256 ^ (MajorField.field .first).count = chunk.place

theorem Block.Fits.kept (fits : block.Fits) (among : chunk ∈ block.chunks) : Kept block.base chunk := by
  have direct := (fits.direct_chunk among).2
  have base := fits.direct_base.2
  have size := fits.size_small among
  have room := fits.room chunk among
  constructor
  all_goals
    apply Nat.mod_eq_of_lt
    simp only [MinorField.field, MajorField.field]
    omega

theorem magic_kept : liballocMagic % 256 ^ (MinorField.field .magic).count = liballocMagic := by decide

/-- What the cases know of the block they put a chunk into. -/
structure Place (heap : Liballoc) (block : Block) (left : List Chunk) (new : Chunk) (right : List Chunk) : Prop where
  gap : Gap block left new right
  fits : block.Fits
  shown : block.Shown heap.kernel.vm.mem

namespace Place

variable (place : Place heap block left new right)
include place

theorem after : (block.insert left new right).Fits := place.gap.fits place.fits

theorem direct : Direct new.place := place.after.direct_chunk Block.new_mem

theorem kept : Kept block.base new := place.after.kept Block.new_mem

theorem old (among : chunk ∈ left ++ right) : chunk ∈ block.chunks := place.gap.split ▸ among

/-- The new chunk is none of the others. -/
theorem different (among : chunk ∈ left ++ right) : chunk.place ≠ new.place := by
  intro same
  have unique := place.after.unique
  simp only [Block.insert, List.map_append, List.map_cons] at unique
  have rest := List.nodup_middle.mp unique
  rw [List.nodup_cons, ← List.map_append] at rest
  exact rest.1 (same ▸ List.mem_map_of_mem among)

section Stores

variable {value : Nat} (among : chunk ∈ left ++ right) (field field' : MinorField) (major : MajorField)

theorem own_own : member (setMember mem new.place field value) new.place field' =
    if field' = field then value % 256 ^ field.field.count else member mem new.place field' := by
  have here : new.place ∈ (block.insert left new right).chunks.map Chunk.place := List.mem_map_of_mem Block.new_mem
  rw [place.after.minor_minor here here]
  simp only [true_and]

include among in
theorem own_old : member (setMember mem new.place field value) chunk.place field' = member mem chunk.place field' := by
  rw [place.after.minor_minor (List.mem_map_of_mem Block.new_mem) (List.mem_map_of_mem (Block.old_mem among))]
  exact if_neg fun same => place.different among same.1

include among in
theorem old_own : member (setMember mem chunk.place field value) new.place field' = member mem new.place field' := by
  rw [place.after.minor_minor (List.mem_map_of_mem (Block.old_mem among)) (List.mem_map_of_mem Block.new_mem)]
  exact if_neg fun same => place.different among same.1.symm

include among in
theorem old_old (among' : other ∈ left ++ right) : member (setMember mem chunk.place field value) other.place field' =
    if other = chunk ∧ field' = field then value % 256 ^ field.field.count else member mem other.place field' :=
  place.fits.chunk_chunk (place.old among) (place.old among') field field'

theorem own_major : member (setMember mem new.place field value) block.base major = member mem block.base major :=
  place.after.minor_major (List.mem_map_of_mem Block.new_mem) field major

include among in
theorem old_major : member (setMember mem chunk.place field value) block.base major = member mem block.base major :=
  place.fits.chunk_major (place.old among) field major

theorem major_own : member (setMember mem block.base major value) new.place field = member mem new.place field :=
  place.after.major_minor (List.mem_map_of_mem Block.new_mem) major field

include among in
theorem major_old : member (setMember mem block.base major value) chunk.place field = member mem chunk.place field :=
  place.fits.major_chunk (place.old among) major field

end Stores

section Bytes

variable {value address : Nat} (above : mmapIoBase ≤ address)
include above

theorem own_byte (field : MinorField) (outside : ¬ (new.place ≤ address ∧ address < new.stop)) :
    setMember mem new.place field value (physical address) = mem (physical address) := by
  have inside := field.inside
  have low := place.direct.1
  have stop : new.stop = new.place + 40 + new.size := rfl
  apply setMember_apart place.direct inside.1 inside.2
  unfold physical
  omega

theorem old_byte (among : chunk ∈ left ++ right) (field : MinorField) (outside : ¬ block.Header address) :
    setMember mem chunk.place field value (physical address) = mem (physical address) :=
  place.fits.chunk_byte (place.old among) field above outside

theorem major_byte (field : MajorField) (outside : ¬ block.Header address) :
    setMember mem block.base field value (physical address) = mem (physical address) :=
  place.fits.major_byte field above outside

end Bytes

theorem usage {filled : Bytes} (same : member filled block.base MajorField.usage =
    member heap.kernel.vm.mem block.base MajorField.usage) :
    member filled block.base MajorField.usage = block.used := same.trans place.shown.usage

theorem inner (here : new.place = block.inner) : wrap (block.base + majorSize) = new.place := by
  have direct := place.direct.2
  unfold Block.inner at here
  rw [here]
  exact wrap_of_lt (by omega)

end Place

namespace Place

theorem behind (place : Place heap block (pre ++ [min]) new right) (here : new.place = min.stop) :
    wrap (min.place + minorSize + min.size) = new.place := by
  have direct := place.direct.2
  unfold Chunk.stop at here
  rw [here]
  exact wrap_of_lt (by omega)

/-- Behind another chunk the first of the block stays. -/
theorem majors (place : Place heap block (pre ++ [min]) new right) (field : MajorField) :
    member heap.kernel.vm.mem block.base field = if field = .first then ((pre ++ [min] ++
      new :: right).map Chunk.place).headD 0
      else member heap.kernel.vm.mem block.base field := by
  split
  next books =>
    subst books
    rw [place.shown.first, place.gap.split]
    cases pre <;> rfl
  next => rfl

end Place

/-- CASE 2. -/
theorem placeFirst_hands (place : Place heap block [] new []) (here : new.place = block.inner) :
    HandsOut heap heap.kernel.vm.mem block [] new [] (heap.placeFirst block.base new.size new.request) := by
  have dbase := place.fits.direct_base
  have dnew := place.direct
  have kept := place.kept
  have front : wrap (block.base + majorSize) = new.place := place.inner here
  unfold placeFirst
  simp only [store_major_bind dbase, load_major_bind dbase, front, withMem_mem, withMem_withMem,
    place.fits.major_major, if_true, kept.first, store_minor_bind dnew]
  refine handOut_hands ⟨?_, nofun, ?_, ?_⟩ place.gap place.fits (place.usage ?_)
  · intro field
    simp only [place.own_own]
    cases field <;> simp [Chunk.header, kept.owner, kept.size, kept.request, magic_kept]
  · intro field
    simp only [place.own_major, place.fits.major_major, kept.first]
    rfl
  · intro address above outside outside'
    simp only [place.own_byte above _ outside', place.major_byte above _ outside]
  · simp only [place.own_major, place.fits.major_major, reduceCtorEq, if_false]

/-- CASE 3. -/
theorem placeFront_hands (place : Place heap block [] new (next :: post)) (here : new.place = block.inner) :
    HandsOut heap heap.kernel.vm.mem block [] new (next :: post) (heap.placeFront block.base new.size new.request) := by
  have back : next ∈ [] ++ next :: post := by simp
  have dbase := place.fits.direct_base
  have dnext := place.fits.direct_chunk (place.old back)
  have dnew := place.direct
  have kept := place.kept
  have knext := place.fits.kept (place.old back)
  have front : wrap (block.base + majorSize) = new.place := place.inner here
  have first : member heap.kernel.vm.mem block.base MajorField.first = next.place := by
    rw [place.shown.first, place.gap.split]
    rfl
  unfold placeFront
  simp only [load_major_bind dbase, first, front, store_minor_bind dnext, load_minor_bind dnext, withMem_mem,
    withMem_withMem, place.old_old back _ _ back, and_self, if_true, kept.prev, store_minor_bind dnew,
    store_major_bind dbase]
  refine handOut_hands ⟨?_, ?_, ?_, ?_⟩ place.gap place.fits (place.usage ?_)
  · intro field
    simp only [place.own_own, place.major_own, place.old_own back]
    cases field <;> simp [Chunk.header, kept.owner, kept.size, kept.request, magic_kept, knext.next]
  · intro chunk among field
    simp only [place.own_old among, place.major_old among, place.old_old back _ _ among]
    cases field <;> simp [Chunk.turned, kept.prev, eq_comm]
  · intro field
    simp only [place.own_major, place.old_major back, place.fits.major_major, kept.first]
    rfl
  · intro address above outside outside'
    simp only [place.own_byte above _ outside', place.major_byte above _ outside, place.old_byte above back _ outside]
  · simp only [place.own_major, place.old_major back, place.fits.major_major, reduceCtorEq, if_false]

/-- CASE 4.1. -/
theorem placeLast_hands (place : Place heap block (pre ++ [min]) new []) (here : new.place = min.stop) :
    HandsOut heap heap.kernel.vm.mem block (pre ++ [min]) new []
      (heap.placeLast block.base min.place new.size new.request) := by
  have front : min ∈ pre ++ [min] ++ [] := by simp
  have dmin := place.fits.direct_chunk (place.old front)
  have dnew := place.direct
  have kept := place.kept
  have kmin := place.fits.kept (place.old front)
  have newMin : wrap (min.place + minorSize + min.size) = new.place := place.behind here
  unfold placeLast
  simp only [load_minor_bind dmin, (place.shown.chunks min (place.old front)).size, newMin,
    store_minor_bind dmin, withMem_mem, withMem_withMem, place.old_old front _ _ front, and_self, if_true,
    kept.next, store_minor_bind dnew]
  refine handOut_hands ⟨?_, ?_, ?_, ?_⟩ place.gap place.fits (place.usage ?_)
  · intro field
    simp only [place.own_own, place.old_own front]
    cases field <;> simp [Chunk.header, kept.owner, kept.size, kept.request, magic_kept, kmin.prev]
  · intro chunk among field
    simp only [place.own_old among, place.old_old front _ _ among]
    cases field <;> simp [Chunk.turned, kept.next, eq_comm]
  · intro field
    simp only [place.own_major, place.old_major front]
    exact place.majors field
  · intro address above outside outside'
    simp only [place.own_byte above _ outside', place.old_byte above front _ outside]
  · simp only [place.own_major, place.old_major front]

/-- CASE 4.2. -/
theorem placeBetween_hands (place : Place heap block (pre ++ [min]) new (next :: post)) (here : new.place = min.stop) :
    HandsOut heap heap.kernel.vm.mem block (pre ++ [min]) new (next :: post)
      (heap.placeBetween block.base min.place new.size new.request) := by
  have front : min ∈ pre ++ [min] ++ next :: post := by simp
  have back : next ∈ pre ++ [min] ++ next :: post := by simp
  have apart : next ≠ min := by
    rintro rfl
    have unique := place.fits.unique
    simp [place.gap.split, List.nodup_append] at unique
  have dmin := place.fits.direct_chunk (place.old front)
  have dnext := place.fits.direct_chunk (place.old back)
  have dnew := place.direct
  have newMin : wrap (min.place + minorSize + min.size) = new.place := place.behind here
  have forth : member heap.kernel.vm.mem min.place MinorField.next = next.place :=
    (place.shown.links (pre.map Chunk.place) min.place (next.place :: post.map Chunk.place)
      (by simp [place.gap.split])).2
  have kept := place.kept
  have kmin := place.fits.kept (place.old front)
  have knext := place.fits.kept (place.old back)
  unfold placeBetween
  simp only [load_minor_bind dmin, (place.shown.chunks min (place.old front)).size, newMin,
    store_minor_bind dnew, withMem_mem, withMem_withMem, place.own_old front, forth, store_minor_bind dnext,
    store_minor_bind dmin]
  refine handOut_hands ⟨?_, ?_, ?_, ?_⟩ place.gap place.fits (place.usage ?_)
  · intro field
    simp only [place.old_own front, place.old_own back, place.own_own]
    cases field <;> simp [Chunk.header, kept.owner, kept.size, kept.request, magic_kept, kmin.prev, knext.next]
  · intro chunk among field
    simp only [place.old_old front _ _ among, place.old_old back _ _ among, place.own_old among]
    cases field <;> simp [Chunk.turned, kept.next, kept.prev, eq_comm]
  · intro field
    simp only [place.old_major front, place.old_major back, place.own_major]
    exact place.majors field
  · intro address above outside outside'
    simp only [place.old_byte above front _ outside, place.old_byte above back _ outside,
      place.own_byte above _ outside']
  · simp only [place.old_major front, place.old_major back, place.own_major]

end Navy.Liballoc
