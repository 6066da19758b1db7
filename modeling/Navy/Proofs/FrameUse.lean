import Navy.Proofs.SpaceCreation

/-! Frames that hold something else than page tables. What is written to them
changes no address space, and no mapping touches them. -/

namespace Navy.Paging
open RadixForest

variable {roots : Nat → Prop}

/-- A page somebody holds for something else than a table. -/
structure Reserved (roots : Nat → Prop) (vm : Vm) (page : Nat) : Prop where
  held : ¬ Available vm.pmm page
  apart : ∀ table, IsTable roots vm.mem table → page ≠ table / 4096

theorem Grows.reserved {before after : Vm} (grows : Grows roots before after) {page : Nat}
    (reserved : Reserved roots before page) : Reserved roots after page := by
  refine ⟨fun free => reserved.held (grows.available page free), fun table isTable same => ?_⟩
  rcases grows.fresh table isTable with old | new
  · exact reserved.apart table old same
  · exact reserved.held (same ▸ new)

theorem Grows.reserved_byte {before after : Vm} (grows : Grows roots before after) {place : Nat}
    (reserved : Reserved roots before (place / 4096)) : after.mem place = before.mem place :=
  grows.bytes place reserved.held reserved.apart

/-- What is reserved before a space is made is reserved in the larger family. -/
theorem Created.reserved {vm after : Vm} {kernel fresh page : Nat} (created : Created roots kernel vm fresh after)
    (reserved : Reserved roots vm page) : Reserved (fun root => roots root ∨ root = fresh) after page := by
  refine ⟨fun free => reserved.held (created.grows.available page free), fun table isTable same => ?_⟩
  rcases created.tables table isTable with old | rfl
  · exact reserved.apart table old same
  · exact reserved.held (same ▸ created.was)

/-- Frames just allocated are reserved, and were free. -/
theorem Spaces.allocated {vm after : Vm} (spaces : Spaces roots vm) {owner : Owner} {amount : Nat} {range : Range}
    (ran : vm.alloc owner amount = .ok (range, after)) :
    Spaces roots after ∧ Grows roots vm after ∧ after.mem = vm.mem ∧
      ∀ page ∈ range.pages, Available vm.pmm page ∧ Reserved roots after page := by
  obtain ⟨taken, -, same⟩ := alloc_ok spaces.sized ran
  have mem : after.mem = vm.mem := by rw [same]
  have fewer (page : Nat) (free : Available after.pmm page) : Available vm.pmm page :=
    ((taken_available taken).mp free).1
  have sized : after.pmm.Sized := by
    simpa only [Pmm.Sized, taken.marked.size] using spaces.sized
  have forest : Forest roots after := spaces.toForest.kept (fun _ _ _ => by rw [mem]) sized fewer
  refine ⟨⟨forest, ?_⟩, ⟨by rw [same], ?_, ?_, fewer, fun place _ _ => by rw [mem]⟩, mem,
    fun page inside => ⟨?_, ?_, ?_⟩⟩
  · rw [mem]
    exact spaces.shared
  · intro root path table _ _ hit
    rwa [mem]
  · intro table isTable
    rw [mem] at isTable
    exact .inl isTable
  · have bound := taken.bound
    have place := Range.mem_pages.mp inside
    exact ⟨by omega, taken.free page inside⟩
  · exact fun free => ((taken_available taken).mp free).2 inside
  · intro table isTable clash
    rw [mem] at isTable
    have bound := taken.bound
    have place := Range.mem_pages.mp inside
    exact spaces.reserved table isTable (clash ▸ ⟨by omega, taken.free page inside⟩)

theorem Spaces.overwritten {vm : Vm} (spaces : Spaces roots vm) {pages : Nat → Prop}
    (reserved : ∀ page, pages page → Reserved roots vm page) {mem : Bytes}
    (same : ∀ place, ¬ pages (place / 4096) → mem place = vm.mem place) :
    Spaces roots { vm with mem } ∧ (∀ table, IsTable roots mem table ↔ IsTable roots vm.mem table) ∧
      (∀ table, IsTable roots vm.mem table → ∀ index, tableEntry mem table index = tableEntry vm.mem table index) ∧
      ∀ root virt, roots root → walk mem root virt = walk vm.mem root virt := by
  have kept (table : Nat) (isTable : IsTable roots vm.mem table) (index : Nat) :
      tableEntry mem table index = tableEntry vm.mem table index := by
    apply tableEntry_congr
    intro place inside
    apply same
    intro written
    exact (reserved _ written).apart table isTable inside
  have forest : Forest roots { vm with mem } := spaces.toForest.kept kept spaces.sized fun _ free => free
  refine ⟨⟨forest, fun root other index isRoot isOther kernel => ?_⟩, isTable_kept kept, kept,
    fun root virt isRoot => ?_⟩
  · rw [kept root ⟨root, [], isRoot, by simp, rfl⟩, kept other ⟨other, [], isOther, by simp, rfl⟩]
    exact spaces.shared root other index isRoot isOther kernel
  · exact spaces.toForest.walk_kept forest kept isRoot virt

/-- Writing to pages that were free at the start is part of growing from there. -/
theorem Grows.overwritten {start vm : Vm} (grows : Grows roots start vm) (spaces : Spaces roots vm) {pages : Nat → Prop}
    (reserved : ∀ page, pages page → Reserved roots vm page) (was : ∀ page, pages page → Available start.pmm page)
    {mem : Bytes} (same : ∀ place, ¬ pages (place / 4096) → mem place = vm.mem place) :
    Grows roots start { vm with mem } := by
  obtain ⟨-, tables, kept, -⟩ := spaces.overwritten reserved same
  refine ⟨grows.kernel, fun root path table isRoot short hit => ?_, fun table isTable => ?_, grows.available,
    fun place held apart => ?_⟩
  · rw [follow_kept kept isRoot (by omega)]
    exact grows.paths root path table isRoot short hit
  · exact grows.fresh table ((tables table).mp isTable)
  · have kept := same place fun written => held (was _ written)
    exact kept.trans (grows.bytes place held apart)

end Navy.Paging
