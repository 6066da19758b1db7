import Navy.Proofs.PageRange

/-! One address space against its purpose: a finite map from virtual pages to
translations, rewritten by whole ranges. -/

namespace Navy.AddressSpace
open Paging

/-- Which translation stands behind each virtual page, if any. -/
abbrev PageMap := Nat → Option Translation

inductive Update where
  | map (virt phys : Range) (isUser : Bool)
  | unmap (range : Range)

def Update.range : Update → Range
  | .map virt _ _ => virt
  | .unmap range => range

def Update.target : Update → PageMap
  | .map virt phys isUser => mapTarget virt phys isUser
  | .unmap _ => fun _ => none

/-- The later update wins; pages outside it keep what they had. -/
def Update.apply (pages : PageMap) (update : Update) : PageMap := fun page =>
  if page ∈ update.range.pages then update.target page else pages page

def Update.perform (pml : Nat) (vm : Vm) : Update → Checked Vm
  | .map virt phys isUser => vmmMapRange vm pml virt phys isUser
  | .unmap range => vmmUnmap vm pml range

def Update.Proper : Update → Prop
  | .map virt phys _ => Paging.Proper virt ∧ phys.base % 4096 = 0 ∧ phys.length = virt.length ∧
      phys.base + phys.length ≤ 2 ^ 52
  | .unmap range => Paging.Proper range

/-- The tables show the map. -/
structure Shows (root : Nat) (vm : Vm) (pages : PageMap) : Prop where
  forest : Forest (· = root) vm
  walks : ∀ virt, Canonical virt → walk vm.mem root virt = pages (virt / 4096)

theorem Shows.empty {root : Nat} {vm : Vm} (sized : vm.pmm.Sized) (aligned : root % 4096 = 0) (small : root < 2 ^ 64)
    (empty : ∀ index, tableEntry vm.mem root index = emptyEntry) (reserved : ¬ Available vm.pmm (root / 4096)) :
    Shows root vm fun _ => none := by
  have only {path : List Nat} {table : Nat} (hit : follow vm.mem root path = some table) : path = [] ∧
    table = root := by
    cases path with
    | nil => exact ⟨rfl, (Option.some.inj hit).symm⟩
    | cons index path => simp [follow, RadixForest.follow, empty, child_empty] at hit
  have forest : Forest (· = root) vm := by
    refine ⟨sized, ⟨?_⟩, ?_, ?_, ?_⟩
    · rintro _ _ path way table rfl rfl _ _ hit again
      exact ⟨(only hit).1.trans (only again).1.symm, .inl rfl⟩
    · rintro _ rfl
      exact ⟨aligned, small⟩
    · rintro _ path table index rfl _ hit present
      rw [(only hit).2, empty] at present
      cases present
    · rintro table ⟨_, path, rfl, _, hit⟩
      rw [(only hit).2]
      exact reserved
  refine ⟨forest, fun virt _ => ?_⟩
  rw [forest.walk_eq rfl]
  simp [follow, RadixForest.follow, pathOf, empty, child_empty]

/-- What one update does to a family of spaces, through any of them. -/
theorem Update.updated {roots : Nat → Prop} {vm after : Vm} {root : Nat} {update : Update}
    (spaces : Spaces roots vm) (isRoot : roots root) (proper : update.Proper)
    (touchable : ∀ virt, update.range.base ≤ virt → virt < update.range.base + update.range.length →
      Touchable roots vm root virt)
    (ran : update.perform (mmapPhysToIo root) vm = .ok after) :
    Updated roots vm root (· ∈ update.range.pages) update.target after := by
  cases update with
  | map virt phys isUser =>
    obtain ⟨range, aligned, length, small⟩ := proper
    exact vmmMapRange_updated range aligned (Nat.le_trans small (by decide)) spaces isRoot touchable ran
  | unmap range => exact vmmUnmap_updated proper spaces isRoot touchable ran

theorem Shows.perform {root : Nat} {vm after : Vm} {pages : PageMap} (shows : Shows root vm pages) {update : Update}
    (proper : update.Proper) (ran : update.perform (mmapPhysToIo root) vm = .ok after) :
    Shows root after (update.apply pages) := by
  have updated := Update.updated (Spaces.alone shows.forest) rfl proper
    (fun _ _ _ => .inr (.inr fun _ same => same)) ran
  refine ⟨updated.spaces.toForest, fun virt canonical => ?_⟩
  unfold Update.apply
  split
  next inside => exact updated.hits root virt rfl canonical inside (.inl rfl)
  next outside =>
    rw [updated.misses root virt rfl canonical fun both => outside both.1]
    exact shows.walks virt canonical

theorem Shows.run {root : Nat} {vm after : Vm} {pages : PageMap} {updates : List Update} (shows : Shows root vm pages)
    (proper : ∀ update ∈ updates, update.Proper)
    (ran : updates.foldlM (Update.perform (mmapPhysToIo root)) vm = .ok after) :
    Shows root after (updates.foldl Update.apply pages) := by
  induction updates generalizing vm pages with
  | nil =>
    cases ran
    exact shows
  | cons update rest ih =>
    rw [List.foldlM_cons] at ran
    obtain ⟨middle, first, last⟩ := Outcome.bind_ok ran
    exact ih (shows.perform (proper update (by simp)) first)
      (fun update member => proper update (by simp [member])) last

/-- The walk answers like the map after any sequence of updates, and an unmap
of pages whose tables exist always returns. -/
theorem tables_refine_map {root : Nat} {vm after : Vm} (pages : PageMap) (forest : Forest (· = root) vm)
    (before : ∀ virt, Canonical virt → walk vm.mem root virt = pages (virt / 4096)) {updates : List Update}
    (proper : ∀ update ∈ updates, update.Proper)
    (ran : updates.foldlM (Update.perform (mmapPhysToIo root)) vm = .ok after) :
    (∀ virt, Canonical virt → walk after.mem root virt = updates.foldl Update.apply pages (virt / 4096)) ∧
    ∀ range, Paging.Proper range →
      (∀ virt, range.base ≤ virt → virt < range.base + range.length → (follow after.mem root (pathOf virt)).isSome) →
      ∃ next, vmmUnmap after (mmapPhysToIo root) range = .ok next := by
  have shows := Shows.run ⟨forest, before⟩ proper ran
  refine ⟨shows.walks, fun range range_proper tables => ?_⟩
  exact vmmUnmap_returns range_proper (Spaces.alone shows.forest) rfl
    (fun _ _ _ => .inr (.inr fun _ same => same)) tables

private def scratchSpace : Vm := ⟨fun _ => 0#8, ⟨fun _ => 0#8, 64, 64, 1⟩, 0, []⟩

private def scratchUpdates : List Update :=
  [.map ⟨0x400000, 0x2000⟩ ⟨0x8000, 0x2000⟩ true, .unmap ⟨0x401000, 0x1000⟩]

theorem tables_refine_map_scratch :
    ∃ after, scratchUpdates.foldlM (Update.perform (mmapPhysToIo 0x100000)) scratchSpace = .ok after ∧
      walk after.mem 0x100000 0x400123 = some ⟨0x8000, true, true⟩ ∧ walk after.mem 0x100000 0x401123 = none := by
  have shows : Shows 0x100000 scratchSpace fun _ => none := by
    refine Shows.empty (show 8 * 64 * 4096 < 2 ^ 64 by decide) (by decide) (by decide) (fun index => ?_) ?_
    · simp only [tableEntry, scratchSpace, Bytes.read_zero, ite_self, emptyEntry]
    · rintro ⟨bound, _⟩
      exact absurd bound (by decide)
  have user {range : Range} (base : range.base % 4096 = 0) (length : range.length % 4096 = 0)
      (low : range.base + range.length ≤ 2 ^ 47) : Paging.Proper range :=
    ⟨base, length, by omega, fun virt _ _ => .inl (by omega)⟩
  have proper : ∀ update ∈ scratchUpdates, update.Proper := by
    intro update member
    simp only [scratchUpdates, List.mem_cons, List.not_mem_nil, or_false] at member
    rcases member with rfl | rfl
    · exact ⟨user (by decide) (by decide) (by decide), by decide, rfl, by decide⟩
    · exact user (by decide) (by decide) (by decide)
  obtain ⟨after, ran⟩ := Outcome.exists_of_isOk
    (scratchUpdates.foldlM (Update.perform (mmapPhysToIo 0x100000)) scratchSpace) (by decide +kernel)
  have walks := (tables_refine_map (fun _ => none) shows.forest shows.walks proper ran).1
  refine ⟨after, ran, ?_, ?_⟩
  · rw [walks _ (.inl (by decide))]
    decide
  · rw [walks _ (.inl (by decide))]
    decide

end Navy.AddressSpace
