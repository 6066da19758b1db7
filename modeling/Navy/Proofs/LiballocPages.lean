import Mathlib.Data.List.Pairwise
import Navy.Library.Contracts
import Navy.Proofs.LiballocBlocks

/-! A further block from the system, and the list it is hung into. -/

namespace Navy.Liballoc
open FirstFit LinkedList Outcome Paging

variable {mem after : Bytes} {block new last other : Block} {blocks pre post : List Block} {heap : Liballoc}
  {kernel : Kernel}
  {size request base : Nat} {initial : Pmm} {roots : Nat → Prop} {root : Nat}

/-- A request the system can be asked for: the number of bytes is an `int`. -/
structure Asks (size : Nat) : Prop where
  word : size + majorSize + minorSize < 2 ^ 32
  int : pagesWanted size * pageSize < 2 ^ 31

theorem pagesWanted_eq (word : size + majorSize + minorSize < 2 ^ 32) :
    pagesWanted size = max lPageCount ((size + majorSize + minorSize + (lPageSize - 1)) / lPageSize) := by
  have sum : ((size + majorSize) % 2 ^ 32 + minorSize) % 2 ^ 32 = size + majorSize + minorSize := by omega
  unfold pagesWanted
  simp only [sum]
  have up : (if (size + majorSize + minorSize) % lPageSize = 0 then (size + majorSize + minorSize) / lPageSize
      else (size + majorSize + minorSize) / lPageSize + 1) =
        (size + majorSize + minorSize + (lPageSize - 1)) / lPageSize := by
    split
    all_goals
      simp only [lPageSize] at *
      omega
  rw [up, Nat.max_def]
  split <;> split <;> omega

/-- The pages asked for have the room, with both headers. -/
theorem Asks.enough (asks : Asks size) : size + majorSize + minorSize ≤ pagesWanted size * pageSize ∧
    lPageCount ≤ pagesWanted size ∧
    pagesWanted (size % 2 ^ 32) = pagesWanted size := by
  have word := asks.word
  refine ⟨?_, ?_, ?_⟩
  · rw [pagesWanted_eq word]
    simp only [lPageSize, pageSize]
    omega
  · rw [pagesWanted_eq word]
    exact Nat.le_max_left _ _
  · rw [Nat.mod_eq_of_lt (by omega)]

/-- The header of a block that has just come. -/
structure Opens (mem : Bytes) (new : Block) : Prop where
  empty : new.chunks = []
  pages : member mem new.base MajorField.pages = new.pages
  size : member mem new.base MajorField.size = new.pages * lPageSize
  usage : member mem new.base MajorField.usage = majorSize
  first : member mem new.base MajorField.first = 0

theorem Opens.shown (opens : Opens mem new) : new.Shown mem := by
  obtain ⟨empty, pages, size, usage, first⟩ := opens
  refine ⟨pages, size, ?_, ?_, ?_, ?_⟩
  · rw [usage, Block.used, empty]
    rfl
  · rw [first, empty]
    rfl
  · rw [empty]
    exact linked_nil
  · rw [empty]
    intro chunk among
    cases among

/-- A block has come behind the others. -/
structure Extended (before : Kernel) (after : Bytes) (blocks : List Block) (new : Block) :
    Prop extends Opens after new where
  prev : member after new.base MajorField.prev = (blocks.map Block.base).getLastD 0
  next : member after new.base MajorField.next = 0
  last : ∀ block, blocks.getLast? = some block → member after block.base MajorField.next = new.base
  bytes : ∀ place, heapOwned before.vm place = true → (∀ block, blocks.getLast? = some block →
    place < physical block.base + 8 ∨ physical block.base + 16 ≤ place) → after place = before.vm.mem place

/-- The statics once a block has come. -/
def extend (heap : Liballoc) (kernel : Kernel) (after : Bytes) (blocks : List Block) (new : Block) : Liballoc :=
  { heap with
    kernel := { kernel with vm := { kernel.vm with mem := after } }
    lMemRoot := ((blocks ++ [new]).map Block.base).headD 0
    lAllocated := wrap (heap.lAllocated + new.pages * lPageSize) }

theorem Block.Given.keep {before : Kernel} (given : block.Given before.vm) (keeps : Keeps before kernel) :
    block.Given kernel.vm := by
  obtain ⟨range, member, same⟩ := given.entry
  exact ⟨fun address low high => keeps.owned _ (given.owned address low high), range, keeps.entries range member, same⟩

theorem Block.Given.place {vm : Vm} (given : block.Given vm) (above : mmapIoBase ≤ block.base) {place : Nat}
    (low : physical block.base ≤ place) (high : place < physical block.base + block.pages * lPageSize) :
    heapOwned vm place = true := by
  have owned := given.owned (place + mmapIoBase)
  rw [physical_add] at owned
  unfold physical at low high
  exact owned (by omega) (by unfold Block.stop; omega)

/-- A block the system has just given meets none there was. -/
theorem Supplied.apart (supplied : Supplied heap.kernel new.pages new.base kernel) (some : 0 < new.pages)
    (given : block.Given heap.kernel.vm) (fits : block.Fits) : block.Apart new := by
  have pages := fits.pages
  have place : block.stop = block.base + block.pages * 4096 := rfl
  have place' : new.stop = new.base + new.pages * 4096 := rfl
  have size : lPageSize = 4096 := rfl
  have size' : pageSize = 4096 := rfl
  unfold Block.Apart
  by_contra meet
  have shared : ∃ address, block.base ≤ address ∧ address < block.stop ∧ new.base ≤ address ∧ address < new.stop := by
    rcases Nat.le_total block.base new.base with less | less
    · exact ⟨new.base, less, by omega, Nat.le_refl _, by omega⟩
    · exact ⟨block.base, Nat.le_refl _, by omega, less, by omega⟩
  obtain ⟨address, low, high, low', high'⟩ := shared
  have owned := given.owned address low high
  rw [supplied.fresh address low' high'] at owned
  cases owned

theorem Supplied.fits (supplied : Supplied heap.kernel new.pages new.base kernel) (empty : new.chunks = [])
    (pages : 0 < new.pages ∧ new.pages * pageSize < 2 ^ 31) : new.Fits := by
  have high := supplied.high
  refine ⟨supplied.low, Nat.le_of_lt high, pages, ?_, ?_⟩
  · rw [empty]
    show new.base + majorSize ≤ new.base + new.pages * lPageSize
    simp only [majorSize, lPageSize]
    omega
  · rw [empty]
    intro chunk among
    cases among

/-- Of the blocks there were only the link of the last has changed. -/
theorem Extended.byte (extended : Extended heap.kernel after blocks new) (shows : Shows heap blocks)
    (among : block ∈ blocks) {place : Nat} (low : physical block.base ≤ place)
    (high : place < physical block.base + block.pages * lPageSize)
    (apart : blocks.getLast? = some block → place < physical block.base + 8 ∨ physical block.base + 16 ≤ place) :
    after place = heap.kernel.vm.mem place := by
  have fits := shows.fits block among
  have above := fits.low
  have given := shows.given block among
  refine extended.bytes place (given.place above low high) fun last found => ?_
  by_cases same : block = last
  · subst same
    exact apart found
  · have inside := List.mem_of_getLast? found
    have fits' := shows.fits last inside
    have above' := fits'.low
    have pages := fits'.pages
    have clear : block.Apart last := shows.apart.forall among inside same
    unfold Block.Apart Block.stop at clear
    unfold physical at *
    simp only [lPageSize] at *
    omega

theorem Extended.member (extended : Extended heap.kernel after blocks new) (shows : Shows heap blocks)
    (among : block ∈ blocks) (field : MajorField) (apart : field = .next → blocks.getLast? ≠ some block) :
    member after block.base field = Liballoc.member heap.kernel.vm.mem block.base field := by
  have fits := shows.fits block among
  have inside := field.inside
  have pages := fits.pages
  apply member_congr fits.direct_base inside.1 inside.2
  intro place low high
  simp only [lPageSize] at pages
  refine extended.byte shows among (by omega) (by simp only [lPageSize]; omega) fun last => ?_
  have other : field ≠ .next := fun same => apart same last
  cases field
  case next => exact absurd rfl other
  all_goals
    simp only [MajorField.field] at low high
    omega

theorem Shows.extended (shows : Shows heap blocks) (supplied : Supplied heap.kernel new.pages new.base kernel)
    (extended : Extended heap.kernel after blocks new) (pages : 0 < new.pages ∧ new.pages * pageSize < 2 ^ 31) :
    Shows (extend heap kernel after blocks new) (blocks ++ [new]) := by
  have fits := supplied.fits extended.empty pages
  have apart {block : Block} (among : block ∈ blocks) : block.Apart new :=
    supplied.apart pages.1 (shows.given block among) (shows.fits block among)
  have different {block : Block} (among : block ∈ blocks) : block.base ≠ new.base := by
    intro same
    have clear := apart among
    have size := (shows.fits block among).pages
    unfold Block.Apart Block.stop at clear
    simp only [lPageSize] at clear size
    omega
  have unique : (blocks.map Block.base ++ [new.base]).Nodup := by
    refine List.nodup_append.mpr ⟨shows.distinct, by simp, fun base among base' member => ?_⟩
    obtain ⟨block, inside, rfl⟩ := List.mem_map.mp among
    obtain rfl := List.mem_singleton.mp member
    exact different inside
  refine ⟨⟨rfl, ?_, ?_, ?_, ?_⟩, ?_, ?_, ?_, ?_⟩
  · rw [List.map_append]
    have links := shows.listed.links
    rw [← List.append_nil (blocks.map Block.base)] at links
    refine links.insert unique extended.next extended.prev ?_ (by simp) ?_ ?_
    · intro base found
      rw [List.getLast?_map] at found
      obtain ⟨block, last, rfl⟩ := Option.map_eq_some_iff.mp found
      exact extended.last block last
    · intro base among other
      rw [List.append_nil] at among
      obtain ⟨block, inside, rfl⟩ := List.mem_map.mp among
      refine extended.member shows inside .next fun _ last => other ?_
      simp [List.getLast?_map, last]
    · intro base among _
      rw [List.append_nil] at among
      obtain ⟨block, inside, rfl⟩ := List.mem_map.mp among
      exact extended.member shows inside .prev (by simp)
  · refine shows.listed.bet.imp_right fun among => ?_
    rw [List.map_append]
    exact List.mem_append_left _ among
  · have sum := shows.listed.allocated
    simp only [extend, allocated, List.map_append, List.sum_append, List.map_cons, List.map_nil, List.sum_cons,
      List.sum_nil] at sum ⊢
    rw [sum]
    unfold wrap
    omega
  · have sum := shows.listed.inuse
    have none : new.lent = 0 := by
      unfold Block.lent
      rw [extended.empty]
      rfl
    simp only [extend, lent, List.map_append, List.sum_append, List.map_cons, List.map_nil, List.sum_cons,
      List.sum_nil, none] at sum ⊢
    exact sum
  · intro block among
    rcases List.mem_append.mp among with old | here
    · refine (shows.shown block old).congr (shows.fits block old) fun place low high => ?_
      exact extended.byte shows old (by omega) high fun _ => .inr low
    · obtain rfl := List.mem_singleton.mp here
      exact extended.shown
  · intro block among
    rcases List.mem_append.mp among with old | here
    · exact shows.fits block old
    · obtain rfl := List.mem_singleton.mp here
      exact fits
  · refine List.pairwise_append.mpr ⟨shows.apart, List.pairwise_singleton _ _, fun block old other here => ?_⟩
    obtain rfl := List.mem_singleton.mp here
    exact apart old
  · intro block among
    rcases List.mem_append.mp among with old | here
    · have given := (shows.given block old).keep supplied.toKeeps
      exact ⟨given.owned, given.entry⟩
    · obtain rfl := List.mem_singleton.mp here
      exact ⟨supplied.given, supplied.entry⟩

/-- A block just come that hangs nowhere yet. -/
structure Headed (kernel : Kernel) (after : Bytes) (new : Block) : Prop extends Opens after new where
  prev : member after new.base MajorField.prev = 0
  next : member after new.base MajorField.next = 0
  bytes : ∀ place, place < physical new.base ∨ physical new.base + majorSize ≤ place → after place = kernel.vm.mem place

theorem allocateNewPage_meets (ground : Ground initial roots root heap.kernel) (asks : Asks size) :
    Meets (heap.allocateNewPage size)
      (fun result => ∃ kernel after, liballocAlloc heap.kernel (pagesWanted size) = .ok (result.1, kernel) ∧
        Headed kernel after ⟨result.1, pagesWanted size, []⟩ ∧
        result.2 = { heap with
          kernel := { kernel with vm := { kernel.vm with mem := after } }
          lAllocated := wrap (heap.lAllocated + pagesWanted size * lPageSize) })
      (fun fault => liballocAlloc heap.kernel (pagesWanted size) = .error fault) := by
  obtain ⟨enough, -, same⟩ := asks.enough
  have int := asks.int
  cases ran : liballocAlloc heap.kernel (pagesWanted size) with
  | error fault =>
    have failed : heap.systemAlloc (pagesWanted size) = .error fault := by
      unfold systemAlloc
      rw [check_true _ int, ran]
      rfl
    unfold allocateNewPage
    simp only [same, failed]
    exact rfl
  | ok supply =>
    obtain ⟨maj, kernel⟩ := supply
    have given : heap.systemAlloc (pagesWanted size) = .ok (maj, { heap with kernel }) := by
      unfold systemAlloc
      rw [check_true _ int, ran]
      rfl
    obtain ⟨-, supplied⟩ := ground.supplies ran
    have high := supplied.high
    simp only [majorSize, minorSize] at enough
    have direct : Direct maj := ⟨supplied.low, by omega⟩
    have some : maj ≠ 0 := by
      have low := direct.1
      have io : 0 < mmapIoBase := by decide
      omega
    have family : Family fun pointer => pointer = maj :=
      ⟨fun _ here => here ▸ direct, fun _ _ here there => .inl (here.trans there.symm)⟩
    have major {mem : Bytes} {value : Nat} (field field' : MajorField) : member
      (setMember mem maj field value) maj field' =
        if field' = field then value % 256 ^ field.field.count else member mem maj field' := by
      rw [family.major rfl rfl]
      simp only [true_and]
    have word : pagesWanted size % 256 ^ (MajorField.field .pages).count = pagesWanted size := by
      apply Nat.mod_eq_of_lt
      simp only [MajorField.field, pageSize] at int ⊢
      omega
    have word' : pagesWanted size * lPageSize % 256 ^ (MajorField.field .size).count =
      pagesWanted size * lPageSize := by
      apply Nat.mod_eq_of_lt
      simp only [MajorField.field, pageSize, lPageSize] at int ⊢
      omega
    unfold allocateNewPage
    simp only [same, given]
    rw [ok_bind]
    simp only [if_neg some, store_major_bind direct, load_major_bind direct, withMem_mem, withMem_withMem, major,
      reduceCtorEq, if_false, if_true, word']
    refine ⟨kernel, _, rfl, ⟨⟨rfl, ?_, ?_, ?_, ?_⟩, ?_, ?_, ?_⟩, rfl⟩
    · simp only [major, reduceCtorEq, if_false, if_true, word]
    · simp only [major, reduceCtorEq, if_false, if_true, word']
    · simp only [major, reduceCtorEq, if_false, if_true]
      rfl
    · simp only [major, if_true, Nat.zero_mod]
    · simp only [major, reduceCtorEq, if_false, if_true, Nat.zero_mod]
    · simp only [major, reduceCtorEq, if_false, if_true, Nat.zero_mod]
    · intro place outside
      have byte {mem : Bytes} {value : Nat} (field : MajorField) : setMember mem maj field value place = mem place := by
        have inside := field.inside
        apply setMember_apart direct inside.1 inside.2
        simp only [majorSize] at outside
        omega
      simp only [byte]

/-- What growing by a block leaves behind. -/
structure Grown (initial : Pmm) (roots : Nat → Prop) (root : Nat) (before : Kernel) (blocks : List Block)
    (size : Nat) (new : Block) (kernel : Kernel) (after : Bytes) : Prop where
  asked : liballocAlloc before (pagesWanted size) = .ok (new.base, kernel)
  pages : new.pages = pagesWanted size
  extended : Extended before after blocks new
  ground : Ground initial roots root { kernel with vm := { kernel.vm with mem := after } }
  bytes : ∀ place, heapOwned kernel.vm place = false → after place = kernel.vm.mem place

/-- A major `maj` hung behind the major `last`. -/
def hang (mem : Bytes) (last maj : Nat) : Bytes :=
  setMember (setMember mem last MajorField.next maj) maj MajorField.prev last

section Hang

variable {last maj : Nat} (direct : Direct last) (direct' : Direct maj) (clear : Clear last maj)
include direct direct'

theorem hang_byte {place : Nat} (outside : place < physical last + 8 ∨ physical last + 16 ≤ place)
    (outside' : place < physical maj ∨ physical maj + 40 ≤ place) : hang mem last maj place = mem place := by
  unfold hang
  rw [setMember_apart direct' (by decide) (by decide), setMember_apart direct (by decide) (by decide)]
  all_goals
    simp only [MajorField.field]
    omega

include clear

theorem hang_family : Family fun pointer => pointer = last ∨ pointer = maj := by
  refine ⟨fun _ here => here.elim (· ▸ direct) (· ▸ direct'), fun first second here there => ?_⟩
  rcases here with rfl | rfl
  · rcases there with rfl | rfl
    · exact .inl rfl
    · exact .inr clear
  · rcases there with rfl | rfl
    · exact .inr (Or.symm clear)
    · exact .inl rfl

theorem hang_own (field : MajorField) :
    member (hang mem last maj) maj field = if field = .prev then last else member mem maj field := by
  have apart : maj ≠ last := by
    unfold Clear at clear
    omega
  have word : last % 256 ^ (MajorField.field .prev).count = last :=
    Nat.mod_eq_of_lt (by have := direct.2; simp only [MajorField.field]; omega)
  have family := hang_family direct direct' clear
  unfold hang
  rw [family.major (.inr rfl) (.inr rfl), family.major (.inl rfl) (.inr rfl), word]
  simp only [true_and, apart, false_and, if_false]

theorem hang_last (field : MajorField) :
    member (hang mem last maj) last field = if field = .next then maj else member mem last field := by
  have apart : last ≠ maj := by
    unfold Clear at clear
    omega
  have word : maj % 256 ^ (MajorField.field .next).count = maj :=
    Nat.mod_eq_of_lt (by have := direct'.2; simp only [MajorField.field]; omega)
  have family := hang_family direct direct' clear
  unfold hang
  rw [family.major (.inr rfl) (.inl rfl), family.major (.inl rfl) (.inl rfl), word]
  simp only [true_and, apart, false_and, if_false]

end Hang

/-- The header of a block that has just come lies in memory that has just come. -/
theorem Supplied.header {pages maj : Nat} (supplied : Supplied heap.kernel pages maj kernel)
    (whole : 40 ≤ pages * pageSize) {place : Nat} (low : physical maj ≤ place)
    (high : place < physical maj + 40) :
    heapOwned kernel.vm place = true ∧ heapOwned heap.kernel.vm place = false := by
  have above := supplied.low
  have given := supplied.given (place + mmapIoBase)
  have fresh := supplied.fresh (place + mmapIoBase)
  rw [physical_add] at given fresh
  unfold physical at low high
  exact ⟨given (by omega) (by omega), fresh (by omega) (by omega)⟩

/-- The last block with a further one behind it. -/
theorem Supplied.hung {maj pages : Nat} (supplied : Supplied heap.kernel pages maj kernel)
    (headed : Headed kernel after ⟨maj, pages, []⟩) (shows : Shows heap (pre ++ [block]))
    (whole : 40 ≤ pages * pageSize) :
    Direct block.base ∧ Direct maj ∧ Extended heap.kernel (hang after block.base maj)
      (pre ++ [block]) ⟨maj, pages, []⟩ ∧
      ∀ place, heapOwned kernel.vm place = false → hang after block.base maj place = kernel.vm.mem place := by
  have among : block ∈ pre ++ [block] := by simp
  have fits := shows.fits block among
  have given := shows.given block among
  have room := fits.pages
  have direct := fits.direct_base
  have high := supplied.high
  have direct' : Direct maj := ⟨supplied.low, by omega⟩
  have apart : block.Apart ⟨maj, pages, []⟩ :=
    supplied.apart (by simp only [pageSize] at whole; show 0 < pages; omega) given fits
  have clear : Clear block.base maj := by
    unfold Block.Apart Block.stop at apart
    simp only [lPageSize, pageSize] at apart room whole
    unfold Clear
    omega
  have own := @hang_own after _ _ direct direct' clear
  refine ⟨direct, direct', ⟨⟨rfl, ?_, ?_, ?_, ?_⟩, ?_, ?_, ?_, ?_⟩, ?_⟩
  · exact (own _).trans headed.pages
  · exact (own _).trans headed.size
  · exact (own _).trans headed.usage
  · exact (own _).trans headed.first
  · apply Eq.trans (own _)
    simp
  · exact (own _).trans headed.next
  · intro last found
    obtain rfl : block = last := by simpa using found
    exact hang_last direct direct' clear _
  · intro place owned outside
    have behind : place < physical maj ∨ physical maj + 40 ≤ place := by
      refine Decidable.byContradiction fun inside => ?_
      rw [(supplied.header whole (by omega) (by omega)).2] at owned
      cases owned
    rw [hang_byte direct direct' (outside block (by simp)) behind, headed.bytes place behind,
      supplied.bytes place owned]
  · intro place foreign
    have outside : place < physical maj ∨ physical maj + 40 ≤ place := by
      refine Decidable.byContradiction fun inside => ?_
      rw [(supplied.header whole (by omega) (by omega)).1] at foreign
      cases foreign
    rw [hang_byte direct direct' _ outside, headed.bytes place outside]
    refine Decidable.byContradiction fun inside => ?_
    simp only [lPageSize] at room
    rw [supplied.owned _ (given.place fits.low (by omega) (by simp only [lPageSize]; omega))] at foreign
    cases foreign

theorem appendNewPage_meets (ground : Ground initial roots root heap.kernel) (asks : Asks size)
    (shows : Shows heap (pre ++ [block])) :
    Meets (heap.appendNewPage block.base size)
      (fun result => ∃ new kernel after, result = (new.base, extend heap kernel after (pre ++ [block]) new) ∧
        Grown initial roots root heap.kernel (pre ++ [block]) size new kernel after)
      (fun fault => liballocAlloc heap.kernel (pagesWanted size) = .error fault) := by
  unfold appendNewPage
  apply (allocateNewPage_meets ground asks).bind
  rintro ⟨maj, heap'⟩ - ⟨kernel, after, ran, headed, rfl⟩
  obtain ⟨ground', supplied⟩ := ground.supplies ran
  obtain ⟨enough, -, -⟩ := asks.enough
  simp only [majorSize, minorSize] at enough
  obtain ⟨direct, direct', extended, quiet⟩ := supplied.hung headed shows (by omega)
  have named : maj ≠ 0 := by
    have low := direct'.1
    have io : 0 < mmapIoBase := by decide
    omega
  simp only
  rw [store_major_bind direct]
  simp only [if_neg named]
  rw [store_major_bind direct']
  refine ⟨⟨maj, pagesWanted size, []⟩, kernel, hang after block.base maj, ?_, ran, rfl, extended,
    ground'.write quiet, quiet⟩
  have root : heap.lMemRoot = ((pre ++ [block] ++ [Block.mk maj (pagesWanted size) []]).map Block.base).headD 0 := by
    rw [shows.listed.root]
    cases pre <;> rfl
  unfold extend
  rw [← root]
  rfl

end Navy.Liballoc
