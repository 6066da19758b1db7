import Navy.Proofs.PageEntry
import Navy.Proofs.PmmSearch

/-! The invariant of all address spaces together. Their tables form a separated
radix forest whose trees share only kernel-half subtrees, and the allocator can
never hand out a frame that already serves as a table. -/

namespace Navy.Paging
open RadixForest

/-- A frame the allocator may still hand out. -/
def Available (pmm : Pmm) (page : Nat) : Prop := page < pmm.bitmapSize ∧ pmm.Free page

abbrev follow (mem : Bytes) (root : Nat) (path : List Nat) : Option Nat :=
  RadixForest.follow child (tableEntry mem) root path

/-- The frame of a table some root reaches. -/
def IsTable (roots : Nat → Prop) (mem : Bytes) (table : Nat) : Prop :=
  ∃ root path, roots root ∧ path.length ≤ 3 ∧ follow mem root path = some table

structure Forest (roots : Nat → Prop) (vm : Vm) : Prop where
  sized : vm.pmm.Sized
  separated : Separated child (256 ≤ ·) 3 roots (tableEntry vm.mem)
  aligned : ∀ root, roots root → root % 4096 = 0 ∧ root < 2 ^ 64
  open' : ∀ root path table index, roots root → path.length < 3 → follow vm.mem root path = some table →
    (tableEntry vm.mem table index).present = true →
    (tableEntry vm.mem table index).readWrite = true ∧ (tableEntry vm.mem table index).user = true
  reserved : ∀ table, IsTable roots vm.mem table → ¬ Available vm.pmm (table / 4096)

/-- What the mapping operations may do to the machine besides their purpose. -/
structure Grows (roots : Nat → Prop) (before after : Vm) : Prop where
  kernel : after.kernelPml4 = before.kernelPml4
  paths : ∀ root path table, roots root → path.length ≤ 3 →
    follow before.mem root path = some table → follow after.mem root path = some table
  fresh : ∀ table, IsTable roots after.mem table → IsTable roots before.mem table ∨ Available before.pmm (table / 4096)
  available : ∀ page, Available after.pmm page → Available before.pmm page
  bytes : ∀ place, ¬ Available before.pmm (place / 4096) →
    (∀ table, IsTable roots before.mem table → place / 4096 ≠ table / 4096) → after.mem place = before.mem place

theorem Grows.refl (roots : Nat → Prop) (vm : Vm) : Grows roots vm vm :=
  ⟨rfl, fun _ _ _ _ _ hit => hit, fun _ table => .inl table, fun _ page => page, fun _ _ _ => rfl⟩

theorem Grows.trans {roots : Nat → Prop} {before middle after : Vm}
    (first : Grows roots before middle) (last : Grows roots middle after) : Grows roots before after := by
  refine ⟨last.kernel.trans first.kernel, ?_, ?_, fun page held => first.available page (last.available page held), ?_⟩
  · intro root path table isRoot short hit
    exact last.paths root path table isRoot short (first.paths root path table isRoot short hit)
  · intro table isTable
    rcases last.fresh table isTable with old | new
    · exact first.fresh table old
    · exact .inr (first.available _ new)
  · intro place held apart
    rw [last.bytes place (fun page => held (first.available _ page)), first.bytes place held apart]
    intro table isTable same
    rcases first.fresh table isTable with old | new
    · exact apart table old same
    · exact held (same ▸ new)

theorem Forest.table_aligned {roots : Nat → Prop} {vm : Vm} (forest : Forest roots vm) {table : Nat}
    (isTable : IsTable roots vm.mem table) : table % 4096 = 0 ∧ table < 2 ^ 64 := by
  obtain ⟨root, path, isRoot, _, hit⟩ := isTable
  rcases List.eq_nil_or_concat path with rfl | ⟨start, index, rfl⟩
  · cases hit
    exact forest.aligned _ isRoot
  · rw [List.concat_eq_append, follow, follow_snoc] at hit
    obtain ⟨parent, _, found⟩ := Option.bind_eq_some_iff.mp hit
    exact child_aligned found

theorem pmlEntry_eq {mem : Bytes} {table index : Nat} (aligned : table % 4096 = 0) (small : table < 2 ^ 64)
    (inside : index < 512) : pmlEntry mem (mmapPhysToIo table) index = tableEntry mem table index := by
  rw [pmlEntry, phys_io _ small, tableEntry, if_pos ⟨aligned, inside⟩]

theorem setPmlEntry_eq (mem : Bytes) {table index : Nat} {entry : PmlEntry} (aligned : table % 4096 = 0)
    (small : table < 2 ^ 64) (inside : index < 512) (fits : Fits entry) :
    tableEntry (setPmlEntry mem (mmapPhysToIo table) index entry) = put (tableEntry mem) table index entry := by
  rw [setPmlEntry, phys_io _ small]
  exact tableEntry_write aligned inside fits

theorem setPmlEntry_apart {mem : Bytes} {table index place : Nat} {entry : PmlEntry} (aligned : table % 4096 = 0)
    (small : table < 2 ^ 64) (inside : index < 512) (apart : place / 4096 ≠ table / 4096) :
    setPmlEntry mem (mmapPhysToIo table) index entry place = mem place := by
  rw [setPmlEntry, phys_io _ small]
  exact Bytes.write_apart _ _ _ _ _ (by omega)

/-- One page taken from the allocator: its frame was available and is not any more. -/
structure Allocated (before : Pmm) (frame : Nat) (after : Pmm) : Prop where
  aligned : frame % 4096 = 0
  small : frame < 2 ^ 61
  was : Available before (frame / 4096)
  gone : ¬ Available after (frame / 4096)
  rest : ∀ page, Available after page → Available before page
  sized : after.Sized

theorem taken_available {before after : Pmm} {range : Range} (taken : Pmm.Taken before range after) {page : Nat} :
    Available after page ↔ Available before page ∧ page ∉ range.pages := by
  simp only [Available, Pmm.Free, taken.marked.size, taken.marked.bits, Range.mem_pages]
  split
  next inside => simp [inside]
  next outside =>
    simp only [outside, not_false_eq_true, and_true]

theorem allocated_of_taken {before after : Pmm} {range : Range} (sized : before.Sized)
    (taken : Pmm.Taken before range after) (some : 0 < range.length) : Allocated before range.base after := by
  have base := taken.base
  have length := taken.length
  have bound := taken.bound
  have small := sized.small
  have first : range.base / 4096 ∈ range.pages := Range.mem_pages.mpr (by omega)
  refine ⟨base, by omega, ⟨by omega, taken.free _ first⟩, ?_, ?_, ?_⟩
  · exact fun held => (taken_available taken).mp held |>.2 first
  · exact fun page held => ((taken_available taken).mp held).1
  · simpa only [Pmm.Sized, taken.marked.size] using sized

theorem alloc_ok {vm after : Vm} {owner : Owner} {amount : Nat} {range : Range} (sized : vm.pmm.Sized)
    (ran : vm.alloc owner amount = .ok (range, after)) :
    Pmm.Taken vm.pmm range after.pmm ∧ (amount ≤ range.length ∨ range = ⟨0, 0⟩) ∧
      after = { vm with pmm := after.pmm, owners := (owner, range) :: vm.owners } := by
  obtain ⟨⟨found, pmm⟩, allocated, rest⟩ := Outcome.bind_ok ran
  cases rest
  have result := Pmm.pmmAlloc_ok sized allocated
  exact ⟨result.1, result.2, rfl⟩

/-- Rewriting frames that are no tables of the forest leaves the forest as it is. -/
theorem follow_kept {roots : Nat → Prop} {mem after : Bytes}
    (same : ∀ table, IsTable roots mem table → ∀ index, tableEntry after table index = tableEntry mem table index)
    {root : Nat} (isRoot : roots root) {path : List Nat} (short : path.length ≤ 4) :
    follow after root path = follow mem root path := by
  apply follow_congr
  rintro start index rest table rfl hit
  simp only [List.length_append, List.length_cons] at short
  rw [same table ⟨root, start, isRoot, by omega, hit⟩]

theorem isTable_kept {roots : Nat → Prop} {mem after : Bytes}
    (same : ∀ table, IsTable roots mem table → ∀ index, tableEntry after table index = tableEntry mem table index)
    (table : Nat) : IsTable roots after table ↔ IsTable roots mem table := by
  constructor
  · rintro ⟨root, path, isRoot, short, hit⟩
    exact ⟨root, path, isRoot, short, by rwa [follow_kept same isRoot (by omega)] at hit⟩
  · rintro ⟨root, path, isRoot, short, hit⟩
    exact ⟨root, path, isRoot, short, by rwa [follow_kept same isRoot (by omega)]⟩

theorem Forest.kept {roots : Nat → Prop} {vm after : Vm} (forest : Forest roots vm)
    (same : ∀ table, IsTable roots vm.mem table → ∀ index,
      tableEntry after.mem table index = tableEntry vm.mem table index)
    (sized : after.pmm.Sized) (available : ∀ page, Available after.pmm page → Available vm.pmm page) :
    Forest roots after := by
  refine ⟨sized, ?_, forest.aligned, ?_, ?_⟩
  · exact forest.separated.congr fun root path isRoot short => follow_kept same isRoot (by omega)
  · intro root path table index isRoot short hit
    rw [follow_kept same isRoot (by omega)] at hit
    rw [same table ⟨root, path, isRoot, by omega, hit⟩]
    exact forest.open' root path table index isRoot short hit
  · intro table isTable held
    exact forest.reserved table ((isTable_kept same table).mp isTable) (available _ held)

end Navy.Paging
