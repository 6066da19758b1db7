import Mathlib.Data.List.Nodup
import Navy.Proofs.LiballocShape

/-! A chunk comes into a block, and goes: what the stores into the headers do to the
lists they are part of. -/

namespace Navy.Liballoc
open FirstFit LinkedList Outcome

variable {mem after : Bytes} {block : Block} {left right : List Chunk} {chunk new : Chunk} {heap : Liballoc}

namespace Block.Fits

variable (fits : block.Fits)
include fits

theorem unique : (block.chunks.map Chunk.place).Nodup := by
  apply fits.packed.unique
  intro chunk member
  have := fits.chunk_bounds member
  omega

/-- The header of a chunk is clear of the header of its block and of those of the others. -/
theorem clear (one : chunk ∈ block.chunks) {other : Chunk} (two : other ∈ block.chunks) :
    chunk = other ∨ Clear chunk.place other.place := by
  have first := fits.chunk_bounds one
  have last := fits.chunk_bounds two
  unfold Clear
  rcases fits.packed.apart one two with same | front | back
  · exact .inl same
  · exact .inr (.inl (by omega))
  · exact .inr (.inr (by omega))

theorem family : Family fun pointer => pointer = block.base ∨ pointer ∈ block.chunks.map Chunk.place := by
  constructor
  · intro pointer header
    rcases header with rfl | among
    · exact fits.direct_base
    · obtain ⟨chunk, member, rfl⟩ := List.mem_map.mp among
      exact fits.direct_chunk member
  · intro first second one two
    rcases one with rfl | one
    · rcases two with rfl | two
      · exact .inl rfl
      · obtain ⟨chunk, member, rfl⟩ := List.mem_map.mp two
        exact .inr (.inl (fits.chunk_bounds member).1)
    · obtain ⟨chunk, member, rfl⟩ := List.mem_map.mp one
      rcases two with rfl | two
      · exact .inr (.inr (fits.chunk_bounds member).1)
      · obtain ⟨other, member', rfl⟩ := List.mem_map.mp two
        rcases fits.clear member member' with rfl | clear
        · exact .inl rfl
        · exact .inr clear

theorem place_above {place : Nat} (among : place ∈ block.chunks.map Chunk.place) : place ≠ block.base := by
  obtain ⟨chunk, member, rfl⟩ := List.mem_map.mp among
  have := fits.chunk_bounds member
  omega

section Stores

variable {place other value : Nat} (here : place ∈ block.chunks.map Chunk.place)
  (there : other ∈ block.chunks.map Chunk.place)

include here there in
theorem minor_minor (field field' : MinorField) : member (setMember mem place field value) other field' =
    if other = place ∧ field' = field then value % 256 ^ field.field.count else member mem other field' :=
  fits.family.minor (.inr here) (.inr there) field field'

include here in
theorem minor_major (field : MinorField) (field' : MajorField) :
    member (setMember mem place field value) block.base field' = member mem block.base field' :=
  fits.family.apart (.inr here) (.inl rfl) (fits.place_above here).symm field.inside field'.inside

include there in
theorem major_minor (field : MajorField) (field' : MinorField) :
    member (setMember mem block.base field value) other field' = member mem other field' :=
  fits.family.apart (.inl rfl) (.inr there) (fits.place_above there) field.inside field'.inside

theorem major_major (field field' : MajorField) : member (setMember mem block.base field value) block.base field' =
    if field' = field then value % 256 ^ field.field.count else member mem block.base field' := by
  have both : member (setMember mem block.base field value) block.base field' = _ :=
    fits.family.major (.inl rfl) (.inl rfl) field field'
  simpa using both

end Stores

theorem body (among : chunk ∈ block.chunks) {address : Nat} (low : chunk.place + minorSize ≤ address)
    (high : address < chunk.stop) : ¬ block.Header address := by
  have bounds := fits.chunk_bounds among
  simp only [minorSize] at low
  rintro (⟨-, inside⟩ | ⟨other, member, begins, ends⟩)
  · unfold Block.inner at inside
    simp only [majorSize] at inside
    omega
  · have bounds' := fits.chunk_bounds member
    simp only [minorSize] at ends
    rcases fits.packed.apart among member with rfl | front | back
    all_goals omega

end Block.Fits

namespace Block.Fits

variable (fits : block.Fits) {other : Chunk} {value address : Nat}
include fits

theorem named (one : chunk ∈ block.chunks) (two : other ∈ block.chunks) : chunk.place = other.place ↔ chunk = other :=
  ⟨fun same => List.inj_on_of_nodup_map fits.unique one two same, congrArg Chunk.place⟩

theorem chunk_chunk (one : chunk ∈ block.chunks) (two : other ∈ block.chunks) (field field' : MinorField) :
    member (setMember mem chunk.place field value) other.place field' =
      if other = chunk ∧ field' = field then value % 256 ^ field.field.count else member mem other.place field' := by
  rw [fits.minor_minor (List.mem_map_of_mem one) (List.mem_map_of_mem two)]
  simp only [fits.named two one]

theorem chunk_major (one : chunk ∈ block.chunks) (field : MinorField) (field' : MajorField) :
    member (setMember mem chunk.place field value) block.base field' = member mem block.base field' :=
  fits.minor_major (List.mem_map_of_mem one) field field'

theorem major_chunk (two : chunk ∈ block.chunks) (field : MajorField) (field' : MinorField) :
    member (setMember mem block.base field value) chunk.place field' = member mem chunk.place field' :=
  fits.major_minor (List.mem_map_of_mem two) field field'

theorem chunk_byte (one : chunk ∈ block.chunks) (field : MinorField) (above : mmapIoBase ≤ address)
    (outside : ¬ block.Header address) :
    setMember mem chunk.place field value (physical address) = mem (physical address) := by
  have inside := field.inside
  have direct := fits.direct_chunk one
  have low := direct.1
  apply setMember_apart direct inside.1 inside.2
  refine Decidable.byContradiction fun clash => outside (.inr ⟨chunk, one, ?_⟩)
  simp only [minorSize]
  unfold physical at clash
  omega

theorem major_byte (field : MajorField) (above : mmapIoBase ≤ address) (outside : ¬ block.Header address) :
    setMember mem block.base field value (physical address) = mem (physical address) := by
  have inside := field.inside
  have direct := fits.direct_base
  have low := direct.1
  apply setMember_apart direct inside.1 inside.2
  refine Decidable.byContradiction fun clash => outside (.inl ?_)
  unfold Block.inner
  simp only [majorSize]
  unfold physical at clash
  omega

end Block.Fits

/-- The byte of `ALIGN` lies in the chunk behind the header. -/
theorem Block.Fits.slack_place (fits : block.Fits) (among : chunk ∈ block.chunks) :
    chunk.place + minorSize ≤ chunk.pointer - alignInfo ∧ chunk.pointer - alignInfo < chunk.stop := by
  have bounds := chunk.pointer_bounds
  have room := Chunk.pointer_room (fits.room chunk among)
  simp only [minorSize, alignInfo]
  omega

theorem slack_byte {value address : Nat} (fits : block.Fits) (among : chunk ∈ block.chunks) (low : mmapIoBase ≤ address)
    (apart : address ≠ chunk.pointer - alignInfo) :
    setMember mem (chunk.pointer - alignInfo) alignByte value (physical address) = mem (physical address) := by
  have place := fits.slack_place among
  have inside := fits.chunk_bounds among
  have := fits.low
  have := fits.high
  simp only [minorSize, alignInfo] at place apart ⊢
  unfold setMember
  simp only [alignByte, Nat.add_zero]
  rw [ioToPhys_eq (by omega) (by omega)]
  apply Bytes.write_apart
  unfold physical
  omega

/-- No header has the byte of `ALIGN`. -/
theorem slack_member {value other : Nat} {field : Field} (fits : block.Fits) (among : chunk ∈ block.chunks)
    (header : other = block.base ∨ other ∈ block.chunks.map Chunk.place)
    (inside : field.offset + field.count ≤ 40 ∧ 0 < field.count) :
    member (setMember mem (chunk.pointer - alignInfo) alignByte value) other field = member mem other field := by
  have direct := fits.family.direct other header
  apply member_congr direct inside.1 inside.2
  intro place low high
  obtain ⟨bottom, top⟩ := direct
  have place_eq : place = physical (place + mmapIoBase) := by unfold physical; omega
  unfold physical at low high
  rw [place_eq]
  apply slack_byte fits among (by omega)
  intro same
  have place := fits.slack_place among
  apply fits.body among place.1 place.2
  rcases header with rfl | header
  · refine .inl ⟨by omega, ?_⟩
    unfold Block.inner
    simp only [majorSize]
    omega
  · obtain ⟨chunk', member, rfl⟩ := List.mem_map.mp header
    refine .inr ⟨chunk', member, by omega, ?_⟩
    simp only [minorSize]
    omega

theorem align_chunk (low : mmapIoBase ≤ chunk.place) (high : chunk.place + 72 ≤ 2 ^ 64) :
    heap.align (wrap (chunk.place + minorSize)) = .ok (chunk.pointer, heap.withMem
      (setMember heap.kernel.vm.mem (chunk.pointer - alignInfo) alignByte
        (chunk.pointer - (chunk.place + minorSize)))) := by
  have bounds := chunk.pointer_bounds
  have pointer : chunk.pointer = (chunk.place + 71) / 16 * 16 := rfl
  have begin : wrap (wrap (chunk.place + minorSize) + alignInfo) = chunk.place + 56 := by
    unfold wrap
    simp only [minorSize, alignInfo]
    omega
  have close (ptr diff : Nat) (moved : ptr = chunk.pointer)
    (far : diff + alignInfo = chunk.pointer - (chunk.place + minorSize)) :
      (do
        let heap ← heap.store (wrapSub ptr alignInfo) alignByte (diff + alignInfo)
        return (ptr, heap)) = (.ok (chunk.pointer,
          heap.withMem (setMember heap.kernel.vm.mem (chunk.pointer - alignInfo) alignByte
          (chunk.pointer - (chunk.place + minorSize)))) : Checked (Nat × Liballoc)) := by
    subst moved
    have front : wrapSub chunk.pointer alignInfo = chunk.pointer - alignInfo := by
      unfold wrapSub wrap
      simp only [alignInfo]
      omega
    unfold store
    rw [front, far, check_true _ (by simp only [alignByte, alignInfo]; rw [wrap_of_lt (by omega)]; omega)]
    rfl
  unfold align
  simp only [begin]
  by_cases even : (chunk.place + 56) % alignment = 0
  · rw [if_neg (not_not_intro even)]
    simp only [alignment, alignInfo, minorSize] at even close ⊢
    exact close _ _ (by omega) (by omega)
  · rw [if_pos even]
    simp only [alignment, alignInfo, minorSize] at even close ⊢
    rw [wrap_of_lt (by omega)]
    exact close _ _ (by omega) (by omega)

/-- The members of the header of a chunk between some others. -/
def Chunk.header (chunk : Chunk) (base : Nat) (left right : List Chunk) : MinorField → Nat
  | .prev => (left.map Chunk.place).getLastD 0
  | .next => (right.map Chunk.place).headD 0
  | .block => base
  | .magic => liballocMagic
  | .size => chunk.size
  | .reqSize => chunk.request

/-- A member of another chunk: its links turn to the new one. -/
def Chunk.turned (chunk : Chunk) (mem : Bytes) (left : List Chunk) (new : Chunk) (right : List Chunk)
    (field : MinorField) : Nat :=
  if field = .next ∧ left.getLast? = some chunk ∨ field = .prev ∧ right.head? = some chunk then new.place
  else member mem chunk.place field

/-- A chunk hangs in a block between some others: its header and the links to it are
right, and nothing else has changed. -/
structure Hung (mem after : Bytes) (block : Block) (left : List Chunk) (new : Chunk) (right : List Chunk) : Prop where
  own : ∀ field : MinorField, member after new.place field = new.header block.base left right field
  others : ∀ chunk ∈ left ++ right, ∀ field : MinorField, member after chunk.place field =
    chunk.turned mem left new right field
  majors : ∀ field : MajorField, member after block.base field =
    if field = .first then ((left ++ new :: right).map Chunk.place).headD 0 else member mem block.base field
  bytes : ∀ address, mmapIoBase ≤ address → ¬ block.Header address → ¬ (new.place ≤ address ∧ address < new.stop) →
    after (physical address) = mem (physical address)

/-- The books of the block are right as well, and the pointer can be given back. -/
structure Inserted (mem after : Bytes) (block : Block) (left : List Chunk) (new : Chunk)
    (right : List Chunk) : Prop where
  own : ∀ field : MinorField, member after new.place field = new.header block.base left right field
  others : ∀ chunk ∈ left ++ right, ∀ field : MinorField, member after chunk.place field =
    chunk.turned mem left new right field
  majors : ∀ field : MajorField, member after block.base field =
    if field = .first then ((left ++ new :: right).map Chunk.place).headD 0
    else if field = .usage then block.used + (new.size + minorSize) else member mem block.base field
  bytes : ∀ address, mmapIoBase ≤ address → ¬ block.Header address → ¬ (new.place ≤ address ∧ address < new.stop) →
    after (physical address) = mem (physical address)
  slack : after (physical (new.pointer - alignInfo)) = BitVec.ofNat 8 (new.pointer - (new.place + minorSize))

/-- A place for a chunk in the gap behind some others. -/
structure Gap (block : Block) (left : List Chunk) (new : Chunk) (right : List Chunk) : Prop where
  split : block.chunks = left ++ right
  begins : behind Chunk.stop block.inner left ≤ new.place
  ends : new.stop ≤ before Chunk.place block.stop right
  room : new.request + (alignment + alignInfo) ≤ new.size

def Block.insert (block : Block) (left : List Chunk) (new : Chunk) (right : List Chunk) : Block :=
  { block with chunks := left ++ new :: right }

theorem Gap.fits (gap : Gap block left new right) (fits : block.Fits) : (block.insert left new right).Fits := by
  have packed := fits.packed
  rw [gap.split] at packed
  refine ⟨fits.low, fits.high, fits.pages, packed.insert gap.begins ?_ gap.ends, fun chunk among => ?_⟩
  · unfold Chunk.stop
    omega
  · rcases List.mem_append.mp among with front | back
    · exact fits.room chunk (by simp [gap.split, front])
    · rcases List.mem_cons.mp back with rfl | back
      · exact gap.room
      · exact fits.room chunk (by simp [gap.split, back])

theorem Gap.used (gap : Gap block left new right) :
    (block.insert left new right).used = block.used + (new.size + minorSize) := by
  unfold Block.used Block.insert
  rw [gap.split, taken_append, taken_append, taken_cons]
  unfold Chunk.stop
  omega

theorem Gap.lent (gap : Gap block left new right) : (block.insert left new right).lent = block.lent + new.size := by
  unfold Block.lent Block.insert
  rw [gap.split]
  simp only [List.map_append, List.map_cons, List.sum_append, List.sum_cons]
  omega

theorem Gap.header (gap : Gap block left new right) {address : Nat} :
    (block.insert left new right).Header address ↔ block.Header address ∨ new.place ≤ address ∧
      address < new.place + minorSize := by
  unfold Block.Header Block.insert Block.inner
  simp only [gap.split, List.mem_append, List.mem_cons]
  constructor
  · rintro (major | ⟨chunk, front | rfl | back, inside⟩)
    · exact .inl (.inl major)
    · exact .inl (.inr ⟨chunk, .inl front, inside⟩)
    · exact .inr inside
    · exact .inl (.inr ⟨chunk, .inr back, inside⟩)
  · rintro ((major | ⟨chunk, front | back, inside⟩) | inside)
    · exact .inl major
    · exact .inr ⟨chunk, .inl front, inside⟩
    · exact .inr ⟨chunk, .inr (.inr back), inside⟩
    · exact .inr ⟨new, .inr (.inl rfl), inside⟩

theorem Inserted.shownBlock (inserted : Inserted mem after block left new right)
    (gap : Gap block left new right) (fits : block.Fits) (shown : block.Shown mem) :
    (block.insert left new right).Shown after := by
  have fits' := gap.fits fits
  have old {chunk : Chunk} (among : chunk ∈ left ++ right) : chunk ∈ block.chunks := gap.split ▸ among
  have unique : (left.map Chunk.place ++ new.place :: right.map Chunk.place).Nodup := by
    have := fits'.unique
    simpa only [Block.insert, List.map_append, List.map_cons] using this
  refine ⟨(inserted.majors .pages).trans shown.pages, (inserted.majors .size).trans shown.size, ?_,
    inserted.majors .first, ?_, ?_⟩
  · apply Eq.trans (inserted.majors .usage)
    exact gap.used.symm
  · have links := shown.links
    rw [gap.split, List.map_append] at links
    have names : (block.insert left new right).chunks.map Chunk.place =
      left.map Chunk.place ++ new.place :: right.map Chunk.place := by
      simp [Block.insert]
    rw [names]
    refine links.insert unique (inserted.own .next) (inserted.own .prev) ?_ ?_ ?_ ?_
    · intro place found
      rw [List.getLast?_map] at found
      obtain ⟨chunk, last, rfl⟩ := Option.map_eq_some_iff.mp found
      apply Eq.trans (inserted.others chunk (by simp [List.mem_of_getLast? last]) .next)
      exact if_pos (.inl ⟨rfl, last⟩)
    · intro place found
      rw [List.head?_map] at found
      obtain ⟨chunk, first, rfl⟩ := Option.map_eq_some_iff.mp found
      apply Eq.trans (inserted.others chunk (by simp [List.mem_of_head? first]) .prev)
      exact if_pos (.inr ⟨rfl, first⟩)
    · intro place among apart
      rw [← List.map_append] at among
      obtain ⟨chunk, member, rfl⟩ := List.mem_map.mp among
      apply Eq.trans (inserted.others chunk member .next)
      refine if_neg fun turned => apart ?_
      obtain ⟨-, last⟩ | ⟨clash, -⟩ := turned
      · simp [List.getLast?_map, last]
      · cases clash
    · intro place among apart
      rw [← List.map_append] at among
      obtain ⟨chunk, member, rfl⟩ := List.mem_map.mp among
      apply Eq.trans (inserted.others chunk member .prev)
      refine if_neg fun turned => apart ?_
      obtain ⟨clash, -⟩ | ⟨-, first⟩ := turned
      · cases clash
      · simp [List.head?_map, first]
  · intro chunk among
    by_cases same : chunk = new
    · subst same
      exact ⟨inserted.own .block, inserted.own .magic, inserted.own .size, inserted.own .reqSize, inserted.slack⟩
    · have member : chunk ∈ left ++ right := by
        have inside : chunk ∈ left ++ new :: right := among
        simp only [List.mem_append, List.mem_cons, same, false_or] at inside
        exact List.mem_append.mpr inside
      have before := shown.chunks chunk (old member)
      refine ⟨(inserted.others chunk member .block).trans before.block,
        (inserted.others chunk member .magic).trans before.magic,
        (inserted.others chunk member .size).trans before.size,
        (inserted.others chunk member .reqSize).trans before.request, ?_⟩
      have slack := fits.slack_place (old member)
      have inside := fits.chunk_bounds (old member)
      have low := fits.low
      have here : new ∈ (block.insert left new right).chunks := by simp [Block.insert]
      rw [inserted.bytes _ (by omega) (fits.body (old member) slack.1 slack.2) ?_]
      · exact before.slack
      · rintro ⟨begins, ends⟩
        have bounds := fits'.chunk_bounds here
        rcases fits'.packed.apart among here with clash | front | back
        · exact same clash
        · omega
        · omega

@[simp] theorem Block.insert_base : (block.insert left new right).base = block.base := rfl

theorem Block.new_mem : new ∈ (block.insert left new right).chunks := by
  simp [Block.insert]

theorem Block.old_mem (among : chunk ∈ left ++ right) : chunk ∈ (block.insert left new right).chunks := by
  simp only [Block.insert, List.mem_append, List.mem_cons] at among ⊢
  exact among.imp_right .inr

theorem slack_self {pointer value : Nat} (low : mmapIoBase ≤ pointer) (high : pointer < 2 ^ 64) :
    setMember mem pointer alignByte value (physical pointer) = BitVec.ofNat 8 value := by
  unfold setMember
  simp only [alignByte, Nat.add_zero]
  rw [ioToPhys_eq low high]
  simp [Bytes.write]

/-- What the end of every case does to a chunk that hangs already. -/
def HandsOut (heap : Liballoc) (mem : Bytes) (block : Block) (left : List Chunk) (new : Chunk) (right : List Chunk)
    (result : Checked (Nat × Liballoc)) : Prop :=
  ∃ after, result = .ok (new.pointer, { heap.withMem after with lInuse := wrap (heap.lInuse + new.size) }) ∧
    Inserted mem after block left new right

/-- The books of a block with a further chunk, and the byte of `ALIGN` in front of its pointer. -/
def settle (mem : Bytes) (block : Block) (new : Chunk) : Bytes :=
  setMember (setMember mem block.base MajorField.usage (block.used + (new.size + minorSize)))
    (new.pointer - alignInfo) alignByte
    (new.pointer - (new.place + minorSize))

theorem handOut_hands {filled : Bytes} (hung : Hung mem filled block left new right)
    (gap : Gap block left new right) (fits : block.Fits)
    (usage : member filled block.base MajorField.usage = block.used) :
    HandsOut heap mem block left new right ((heap.withMem filled).handOut block.base new.place new.size) := by
  have fits' : (block.insert left new right).Fits := gap.fits fits
  have inside : block.base + 40 ≤ new.place ∧ new.place + 40 ≤ new.stop ∧
    new.stop ≤ (block.insert left new right).stop :=
    fits'.chunk_bounds Block.new_mem
  have low := fits.low
  have high : (block.insert left new right).stop ≤ 2 ^ 64 := fits'.high
  have small := fits'.used_small.2
  rw [gap.used] at small
  have slack := fits'.slack_place Block.new_mem
  have room := gap.room
  simp only [alignment, alignInfo] at room
  have stop : new.stop = new.place + minorSize + new.size := rfl
  have header : minorSize = 40 := rfl
  refine ⟨settle filled block new, ?_, ?_⟩
  · unfold handOut
    rw [load_major fits.direct_base, ok_bind, store_major fits.direct_base, ok_bind, withMem_mem, usage]
    rw [align_chunk (by omega) (by omega)]
    rfl
  · have minors {chunk : Chunk} (among : chunk ∈ (block.insert left new right).chunks) (field : MinorField) :
        member (settle filled block new) chunk.place field = member filled chunk.place field := by
      unfold settle
      rw [slack_member fits' Block.new_mem (.inr (List.mem_map_of_mem among)) field.inside]
      exact fits'.major_minor (List.mem_map_of_mem among) _ field
    have majors (field : MajorField) :
        member (settle filled block new) block.base field =
          if field = .usage then block.used + (new.size + minorSize) else member filled block.base field := by
      unfold settle
      refine (slack_member fits' Block.new_mem (.inl rfl) field.inside).trans ?_
      rw [Block.insert_base, fits.major_major, Nat.mod_eq_of_lt]
      rw [show MajorField.usage.field.count = 4 from rfl]
      omega
    refine ⟨?_, ?_, ?_, ?_, ?_⟩
    · intro field
      exact (minors Block.new_mem field).trans (hung.own field)
    · intro chunk among field
      exact (minors (Block.old_mem among) field).trans (hung.others chunk among field)
    · intro field
      apply Eq.trans (majors field)
      by_cases books : field = .usage
      · subst books
        rfl
      · rw [if_neg books, if_neg books]
        exact hung.majors field
    · intro address above outside apart
      unfold settle
      rw [slack_byte fits' Block.new_mem above (fun same => apart (by omega)), setMember_apart fits.direct_base
        MajorField.usage.inside.1 MajorField.usage.inside.2]
      · exact hung.bytes address above outside apart
      · unfold physical
        refine Decidable.byContradiction fun clash => outside (.inl ?_)
        simp only [MajorField.field] at clash
        unfold Block.inner
        simp only [majorSize]
        omega
    · exact slack_self (by omega) (by omega)

end Navy.Liballoc
