import Navy.Proofs.PageForest

/-! What one page mapping does to every address space of the forest. -/

namespace Navy.Paging
open RadixForest

/-- The leaf entry as the processor reports it once the upper levels allow everything. -/
def leaf (entry : PmlEntry) : Option Translation :=
  if entry.present then some ⟨entry.address, entry.readWrite, entry.user⟩ else none

private theorem presentEntry_eq (mem : Bytes) {table index : Nat} (aligned : table % 4096 = 0) (inside : index < 512) :
    presentEntry mem table index =
      if (tableEntry mem table index).present then some (tableEntry mem table index) else none := by
  simp only [presentEntry, tableEntry, aligned, inside, and_self, if_true]

/-- Interior entries are open, so the walk's permissions are those of the leaf. -/
theorem Forest.walk_eq {roots : Nat → Prop} {vm : Vm} (forest : Forest roots vm) {root : Nat} (isRoot : roots root)
    (virt : Nat) : walk vm.mem root virt =
      (follow vm.mem root (pathOf virt)).bind fun table => leaf (tableEntry vm.mem table (pml1GetIndex virt)) := by
  -- one level: an absent entry ends both sides, a present one is open and moves both to the same table
  have level (path : List Nat) (table index : Nat) (short : path.length < 3) (inside : index < 512)
      (hit : follow vm.mem root path = some table) :
      (presentEntry vm.mem table index = none ∧ follow vm.mem root (path ++ [index]) = none) ∨
      ∃ entry, presentEntry vm.mem table index = some entry ∧ entry.readWrite = true ∧ entry.user = true ∧
        follow vm.mem root (path ++ [index]) = some entry.address := by
    have aligned := (forest.table_aligned ⟨root, path, isRoot, by omega, hit⟩).1
    rw [presentEntry_eq vm.mem aligned inside, follow, follow_snoc,
      show RadixForest.follow child _ root path = _ from hit]
    cases present : (tableEntry vm.mem table index).present with
    | false => exact .inl ⟨rfl, by simp [child, present]⟩
    | true =>
      have flags := forest.open' root path table index isRoot short hit present
      exact .inr ⟨_, rfl, flags.1, flags.2, by simp [child, present]⟩
  unfold walk
  rcases level [] root _ (by simp) (pmlxGetIndex_lt virt 3) rfl with ⟨absent, missing⟩ |
    ⟨pml4e, found4, write4, user4, hit4⟩
  · have none4 : follow vm.mem root (pathOf virt) = none := by
      rw [show pathOf virt = [pml4GetIndex virt] ++ [pml3GetIndex virt, pml2GetIndex virt] from rfl, follow,
        follow_append]
      exact Option.bind_eq_none_iff.mpr fun table hit => absurd (missing.symm.trans hit) (by simp)
    simp only [pml4GetIndex] at absent ⊢
    simp [absent, none4]
  rcases level [pml4GetIndex virt] _ _ (by simp) (pmlxGetIndex_lt virt 2) hit4 with
    ⟨absent, missing⟩ | ⟨pml3e, found3, write3, user3, hit3⟩
  · have none3 : follow vm.mem root (pathOf virt) = none := by
      rw [show pathOf virt = ([pml4GetIndex virt] ++ [pml3GetIndex virt]) ++ [pml2GetIndex virt] from rfl, follow,
        follow_append]
      exact Option.bind_eq_none_iff.mpr fun table hit => absurd (missing.symm.trans hit) (by simp)
    simp only [pml4GetIndex, pml3GetIndex] at found4 absent ⊢
    simp [found4, absent, none3]
  rcases level ([pml4GetIndex virt] ++ [pml3GetIndex virt]) _ _ (by simp) (pmlxGetIndex_lt virt 1) hit3 with
    ⟨absent, missing⟩ | ⟨pml2e, found2, write2, user2, hit2⟩
  · have none2 : follow vm.mem root (pathOf virt) = none := missing
    simp only [pml4GetIndex, pml3GetIndex, pml2GetIndex] at found4 found3 absent ⊢
    simp [found4, found3, absent, none2]
  · have reached : follow vm.mem root (pathOf virt) = some pml2e.address := hit2
    have aligned := (forest.table_aligned ⟨root, pathOf virt, isRoot, by simp [pathOf], reached⟩).1
    have last := presentEntry_eq vm.mem aligned (pmlxGetIndex_lt virt 0)
    rw [reached, Option.bind_some, leaf]
    simp only [pml4GetIndex, pml3GetIndex, pml2GetIndex, pml1GetIndex] at found4 found3 found2 ⊢
    simp only [found4, found3, found2, last, Option.bind_eq_bind, Option.bind_some]
    by_cases present : (tableEntry vm.mem pml2e.address (pmlxGetIndex virt 0)).present = true
    · simp [present, write4, write3, write2, user4, user3, user2]
    · simp [present]

variable {roots : Nat → Prop}

/-- Spaces whose tables hold the same entries translate alike. -/
theorem Forest.walk_kept {vm after : Vm} (forest : Forest roots vm) (forest' : Forest roots after)
    (same : ∀ table, IsTable roots vm.mem table → ∀ index,
      tableEntry after.mem table index = tableEntry vm.mem table index)
    {root : Nat} (isRoot : roots root) (virt : Nat) : walk after.mem root virt = walk vm.mem root virt := by
  rw [forest.walk_eq isRoot, forest'.walk_eq isRoot, follow_kept same isRoot (by simp [pathOf])]
  cases hit : follow vm.mem root (pathOf virt) with
  | none => rfl
  | some table =>
    have isTable : IsTable roots vm.mem table := ⟨root, pathOf virt, isRoot, by simp [pathOf], hit⟩
    rw [Option.bind_some, Option.bind_some, same table isTable]

/-- A frame just taken from the allocator, zeroed: no table yet, and nothing else moved. -/
structure Claimed (roots : Nat → Prop) (vm : Vm) (frame : Nat) (after : Vm) : Prop where
  forest : Forest roots after
  grows : Grows roots vm after
  aligned : frame % 4096 = 0
  small : frame < 2 ^ 61
  was : Available vm.pmm (frame / 4096)
  gone : ¬ Available after.pmm (frame / 4096)
  unreached : ¬ IsTable roots vm.mem frame
  tables : ∀ table, IsTable roots after.mem table ↔ IsTable roots vm.mem table
  empty : ∀ index, tableEntry after.mem frame index = emptyEntry
  same : ∀ table, table ≠ frame → ∀ index, tableEntry after.mem table index = tableEntry vm.mem table index

theorem Forest.claim {vm : Vm} (forest : Forest roots vm) {frame : Nat} {pmm : Pmm} {owners : List (Owner × Range)}
    (allocated : Allocated vm.pmm frame pmm) :
    Claimed roots vm frame { vm with mem := memset vm.mem (mmapPhysToIo frame) 0 pageSize, pmm, owners } := by
  have small := allocated.small
  have zeroed : memset vm.mem (mmapPhysToIo frame) 0 pageSize = vm.mem.fill frame 4096 0 := by
    unfold memset
    rw [phys_io _ (by omega), pageSize]
  have entries := tableEntry_zero vm.mem allocated.aligned
  have unreached : ¬ IsTable roots vm.mem frame := fun isTable => forest.reserved frame isTable allocated.was
  have same (table : Nat) (apart : table ≠ frame) (index : Nat) :
      tableEntry (vm.mem.fill frame 4096 0) table index = tableEntry vm.mem table index := by
    rw [entries]
    simp only [apart, if_false]
  have kept (table : Nat) (isTable : IsTable roots vm.mem table) :=
    same table (fun clash => unreached (clash ▸ isTable))
  rw [zeroed]
  refine ⟨forest.kept kept allocated.sized allocated.rest, ?_, allocated.aligned, small, allocated.was, allocated.gone,
    unreached, isTable_kept kept, fun index => by rw [entries]; simp, same⟩
  refine ⟨rfl, ?_, fun table isTable => .inl ((isTable_kept kept table).mp isTable), allocated.rest, ?_⟩
  · intro root path table isRoot short hit
    rwa [follow_kept kept isRoot (by omega)]
  · intro place held apart
    have aligned := allocated.aligned
    refine Bytes.fill_apart _ _ _ _ _ ?_
    have different : place / 4096 ≠ frame / 4096 := fun clash => held (clash ▸ allocated.was)
    omega

/-- A new empty table hung into an absent slot. -/
structure Linked (roots : Nat → Prop) (vm : Vm) (table index fresh : Nat) (after : Vm) : Prop where
  forest : Forest roots after
  paths : ∀ root path found, roots root → path.length ≤ 3 →
    follow vm.mem root path = some found → follow after.mem root path = some found
  tables : ∀ found, IsTable roots after.mem found → IsTable roots vm.mem found ∨ found = fresh
  bytes : ∀ place, place / 4096 ≠ table / 4096 → after.mem place = vm.mem place
  walks : ∀ other virt, roots other → walk after.mem other virt = walk vm.mem other virt
  slots : ∀ found place, ¬ (found = table ∧ place = index) →
    tableEntry after.mem found place = tableEntry vm.mem found place
  link : child (tableEntry after.mem table index) = some fresh

theorem Forest.link {vm : Vm} (forest : Forest roots vm) {root table index fresh : Nat} {path : List Nat}
    (isRoot : roots root) (short : path.length < 3) (reached : follow vm.mem root path = some table)
    (inside : index < 512) (absent : (tableEntry vm.mem table index).present = false)
    (aligned : fresh % 4096 = 0) (small : fresh < 2 ^ 61) (unreached : ¬ IsTable roots vm.mem fresh)
    (held : ¬ Available vm.pmm (fresh / 4096)) (empty : ∀ place, tableEntry vm.mem fresh place = emptyEntry) :
    Linked roots vm table index fresh
      { vm with mem := setPmlEntry vm.mem (mmapPhysToIo table) index (pmlMakeEntry fresh true) } := by
  have isTable : IsTable roots vm.mem table := ⟨root, path, isRoot, by omega, reached⟩
  obtain ⟨tableAligned, tableSmall⟩ := forest.table_aligned isTable
  have entries := setPmlEntry_eq vm.mem tableAligned tableSmall inside (pmlMakeEntry_fits fresh true)
  have hung : child (pmlMakeEntry fresh true) = some fresh := by
    have address : (pmlMakeEntry fresh true).address = fresh := by
      rw [pmlMakeEntry_address, wrap_of_lt (by omega)]
      omega
    rw [child, address]
    rfl
  have none : child (tableEntry vm.mem table index) = none := by simp [child, absent]
  have away (other : Nat) (way : List Nat) (isOther : roots other) (short : way.length ≤ 3) :
      follow vm.mem other way ≠ some fresh := fun hit => unreached ⟨other, way, isOther, short, hit⟩
  have bare (place : Nat) : child (tableEntry vm.mem fresh place) = Option.none := by rw [empty, child_empty]
  -- the only new path is the slot itself, in every tree that reaches the slot's table
  have paths {other : Nat} (isOther : roots other) {way : List Nat} (wayShort : way.length ≤ 3) (found : Nat) :
      RadixForest.follow child (put (tableEntry vm.mem) table index (pmlMakeEntry fresh true)) other way = some found ↔
        follow vm.mem other way = some found ∨
          way = path ++ [index] ∧ found = fresh ∧ follow vm.mem other path = some table :=
    follow_put_link forest.separated isRoot short reached none hung away bare isOther wayShort found
  have tables (found : Nat) (isFound : IsTable roots
      (setPmlEntry vm.mem (mmapPhysToIo table) index (pmlMakeEntry fresh true)) found) :
      IsTable roots vm.mem found ∨ found = fresh := by
    obtain ⟨other, way, isOther, wayShort, hit⟩ := isFound
    rw [follow, entries, paths isOther wayShort] at hit
    rcases hit with old | ⟨_, same, _⟩
    · exact .inl ⟨other, way, isOther, wayShort, old⟩
    · exact .inr same
  have after : Forest roots { vm with mem := setPmlEntry vm.mem (mmapPhysToIo table) index (pmlMakeEntry fresh true) } := by
    refine ⟨forest.sized, ?_, forest.aligned, ?_, ?_⟩
    · rw [entries]
      exact forest.separated.put_link isRoot short reached none hung away bare
    · intro other way found place isOther wayShort hit present
      rw [follow, entries, paths isOther (by omega)] at hit
      rw [entries] at present ⊢
      by_cases slot : found = table ∧ place = index
      · simp only [put, slot, and_self, if_true]
        exact ⟨rfl, rfl⟩
      · simp only [put, slot, if_false] at present ⊢
        rcases hit with old | ⟨_, rfl, _⟩
        · exact forest.open' other way found place isOther wayShort old present
        · rw [empty] at present
          cases present
    · intro found isFound
      rcases tables found isFound with old | rfl
      · exact forest.reserved found old
      · exact held
  refine ⟨after, ?_, tables, fun place => setPmlEntry_apart tableAligned tableSmall inside, ?_, ?_, ?_⟩
  · intro other way found isOther wayShort hit
    rw [follow, entries, paths isOther wayShort]
    exact .inl hit
  · intro other virt isOther
    have length : (pathOf virt).length ≤ 3 := by simp [pathOf]
    rw [forest.walk_eq isOther, after.walk_eq isOther, follow, entries]
    cases hit : follow vm.mem other (pathOf virt) with
    | some found =>
      have different : found ≠ table := by
        rintro rfl
        have same := (forest.separated.apart isRoot isOther (by omega) length reached hit).1
        rw [same] at short
        simp [pathOf] at short
      rw [(paths isOther length found).mpr (.inl hit)]
      simp only [Option.bind_some, put, different, false_and, if_false]
    | none =>
      cases new : RadixForest.follow child (put (tableEntry vm.mem) table index (pmlMakeEntry fresh true)) other (pathOf virt) with
      | none => rfl
      | some found =>
        rcases (paths isOther length found).mp new with old | ⟨_, rfl, _⟩
        · rw [hit] at old
          cases old
        · have different : found ≠ table := by
            rintro rfl
            exact unreached isTable
          simp only [Option.bind_some, put, different, false_and, if_false, empty]
          rfl
  · intro found place slot
    rw [entries]
    simp only [put, slot, if_false]
  · rw [entries]
    simpa only [put, and_self, if_true] using hung

/-- What a table lookup on the way to a page leaves behind: `next` answers to
the longer path, and no space translates differently. -/
structure Descended (roots : Nat → Prop) (vm : Vm) (root : Nat) (path : List Nat) (table index : Nat)
    (next : Nat) (after : Vm) : Prop where
  forest : Forest roots after
  grows : Grows roots vm after
  reached : follow after.mem root (path ++ [index]) = some next
  walks : ∀ other virt, roots other → walk after.mem other virt = walk vm.mem other virt
  slots : ∀ found place, IsTable roots vm.mem found → ((found, place) = (table, index) →
    (tableEntry vm.mem table index).present = true) → tableEntry after.mem found place = tableEntry vm.mem found place

theorem vmmGetPmlAlloc_ok {vm after : Vm} (forest : Forest roots vm) {root table index : Nat} {path : List Nat}
    (isRoot : roots root) (short : path.length < 3) (reached : follow vm.mem root path = some table)
    (inside : index < 512) {range : Range}
    (ran : vmmGetPmlAlloc vm (mmapPhysToIo table) index true = .ok (range, after)) :
    ∃ next, range.base = mmapPhysToIo next ∧ Descended roots vm root path table index next after := by
  have isTable : IsTable roots vm.mem table := ⟨root, path, isRoot, by omega, reached⟩
  obtain ⟨aligned, small⟩ := forest.table_aligned isTable
  simp only [vmmGetPmlAlloc, pmlEntry_eq aligned small inside] at ran
  split at ran
  next present =>
    obtain ⟨rfl, rfl⟩ := Prod.mk.inj (Except.ok.inj ran)
    refine ⟨_, rfl, forest, .refl _ _, ?_, fun _ _ _ => rfl, fun _ _ _ _ => rfl⟩
    rw [follow, follow_snoc, show RadixForest.follow child _ root path = _ from reached, Option.bind_some, child, if_pos present]
    rfl
  next absent =>
    obtain ⟨⟨frame, middle⟩, allocated, ran⟩ := Outcome.bind_ok ran
    obtain ⟨_, positive, rest⟩ := Outcome.bind_ok ran
    obtain ⟨rfl, rfl⟩ := Prod.mk.inj (Except.ok.inj rest)
    have result := alloc_ok forest.sized allocated
    have claimed : Claimed roots vm frame.base { middle with mem := memset middle.mem (mmapPhysToIo frame.base) 0 pageSize } := by
      have taken := allocated_of_taken forest.sized result.1 (check_ok positive)
      rw [result.2.2]
      exact forest.claim taken
    have apart : table ≠ frame.base := by
      rintro rfl
      exact claimed.unreached isTable
    have still := claimed.grows.paths root path table isRoot (by omega) reached
    have missing := (congrArg PmlEntry.present (claimed.same table apart index)).trans (Bool.eq_false_iff.mpr absent)
    have unreached := mt (claimed.tables frame.base).mp claimed.unreached
    have linked := claimed.forest.link isRoot short still inside missing claimed.aligned claimed.small unreached
      claimed.gone claimed.empty
    dsimp only at linked ⊢
    refine ⟨frame.base, rfl, linked.forest, ?_, ?_, ?_, ?_⟩
    · refine ⟨claimed.grows.kernel, ?_, ?_, claimed.grows.available, ?_⟩
      · intro other way found isOther wayShort hit
        exact linked.paths other way found isOther wayShort (claimed.grows.paths other way found isOther wayShort hit)
      · intro found isFound
        rcases linked.tables found isFound with old | rfl
        · exact claimed.grows.fresh found old
        · exact .inr claimed.was
      · intro place held away
        rw [linked.bytes place (away table isTable), claimed.grows.bytes place held away]
    · rw [follow, follow_snoc, show RadixForest.follow child _ root path = _ from linked.paths root path table isRoot (by omega) still]
      exact linked.link
    · intro other virt isOther
      rw [linked.walks other virt isOther]
      exact forest.walk_kept claimed.forest (fun found isFound =>
        claimed.same found (fun clash => claimed.unreached (clash ▸ isFound))) isOther virt
    · intro found place isFound slot
      have old : ¬ (found = table ∧ place = index) := by
        rintro ⟨rfl, rfl⟩
        exact absent (slot rfl)
      rw [linked.slots found place old, claimed.same found (fun clash => claimed.unreached (clash ▸ isFound))]

/-- Two addresses whose translations live in one leaf entry. -/
def SameSlot (first second : Nat) : Prop := pathOf first = pathOf second ∧ pml1GetIndex first = pml1GetIndex second

theorem SameSlot.page {first second : Nat} (canonical : Canonical first) (canonical' : Canonical second) :
    SameSlot first second ↔ first / 4096 = second / 4096 := by
  have bound {virt : Nat} (canonical : Canonical virt) : virt < 2 ^ 64 := by
    simp only [Canonical] at canonical
    omega
  exact ⟨fun same => same_page canonical canonical' same.1 same.2, indices_congr (bound canonical) (bound canonical')⟩

instance (first second : Nat) : Decidable (SameSlot first second) := inferInstanceAs (Decidable (_ ∧ _))

/-- One leaf rewritten: every space that reaches the leaf's table sees `target`
at `virt`, and nothing else changes its translation. -/
structure Mapped (roots : Nat → Prop) (vm : Vm) (root virt : Nat) (target : Option Translation)
    (after : Vm) : Prop where
  forest : Forest roots after
  grows : Grows roots vm after
  reached : ∃ table, follow after.mem root (pathOf virt) = some table
  walks : ∀ other place, roots other → walk after.mem other place =
    if SameSlot place virt ∧ follow after.mem other (pathOf virt) = follow after.mem root (pathOf virt) then target
    else walk vm.mem other place
  slots : ∀ other index, roots other → ((other, index) = (root, pml4GetIndex virt) →
    (tableEntry vm.mem other index).present = true) → tableEntry after.mem other index = tableEntry vm.mem other index

/-- A table further down is never itself a root. -/
theorem Forest.below_root {vm : Vm} (forest : Forest roots vm) {root other table index : Nat} {path : List Nat}
    (isRoot : roots root) (isOther : roots other) (short : path.length < 3)
    (reached : follow vm.mem root (path ++ [index]) = some table) : table ≠ other := by
  rintro rfl
  have same := (forest.separated.apart isRoot isOther
    (show (path ++ [index]).length ≤ 3 by rw [List.length_append]; exact short)
    (show ([] : List Nat).length ≤ 3 by simp) reached rfl).1
  simp at same

theorem Forest.store {vm : Vm} (forest : Forest roots vm) {root table : Nat} (isRoot : roots root) (virt : Nat)
    (reached : follow vm.mem root (pathOf virt) = some table) {entry : PmlEntry} (fits : Fits entry) :
    Mapped roots vm root virt (leaf entry)
      { vm with mem := setPmlEntry vm.mem (mmapPhysToIo table) (pml1GetIndex virt) entry } := by
  have length (virt : Nat) : (pathOf virt).length = 3 := rfl
  have isTable : IsTable roots vm.mem table := ⟨root, pathOf virt, isRoot, Nat.le_of_eq (length virt), reached⟩
  obtain ⟨aligned, small⟩ := forest.table_aligned isTable
  have inside : pml1GetIndex virt < 512 := pmlxGetIndex_lt virt 0
  have entries := setPmlEntry_eq vm.mem aligned small inside fits
  have paths {other : Nat} (isOther : roots other) {way : List Nat} (short : way.length ≤ 3) :
      follow (setPmlEntry vm.mem (mmapPhysToIo table) (pml1GetIndex virt) entry) other way =
        follow vm.mem other way := by
    rw [follow, entries]
    exact follow_put_leaf forest.separated isRoot (length virt) reached _ _ isOther short
  -- a table above the leaf level is not the one written to
  have above {other found : Nat} {way : List Nat} (isOther : roots other) (short : way.length < 3)
      (hit : follow vm.mem other way = some found) : found ≠ table := by
    rintro rfl
    have same := (forest.separated.apart isRoot isOther (Nat.le_of_eq (length virt)) (by omega) reached hit).1
    rw [← same, length] at short
    omega
  have tables (found : Nat) : IsTable roots (setPmlEntry vm.mem (mmapPhysToIo table) (pml1GetIndex virt) entry) found ↔
      IsTable roots vm.mem found := by
    constructor <;> rintro ⟨other, way, isOther, short, hit⟩ <;> refine ⟨other, way, isOther, short, ?_⟩
    · rwa [paths isOther short] at hit
    · rwa [paths isOther short]
  have after : Forest roots
      { vm with mem := setPmlEntry vm.mem (mmapPhysToIo table) (pml1GetIndex virt) entry } := by
    refine ⟨forest.sized, ?_, forest.aligned, ?_, fun found isFound =>
      forest.reserved found ((tables found).mp isFound)⟩
    · exact forest.separated.congr fun other way isOther short => paths isOther short
    · intro other way found place isOther short hit present
      rw [paths isOther (by omega)] at hit
      rw [entries] at present ⊢
      simp only [put, above isOther short hit, false_and, if_false] at present ⊢
      exact forest.open' other way found place isOther short hit present
  refine ⟨after, ?_, ⟨table, ?_⟩, ?_, ?_⟩
  · refine ⟨rfl, ?_, fun found isFound => .inl ((tables found).mp isFound), fun _ page => page, ?_⟩
    · intro other way found isOther short hit
      rwa [paths isOther short]
    · intro place _ apart
      exact setPmlEntry_apart aligned small inside (apart table isTable)
  · rwa [paths isRoot (Nat.le_of_eq (length virt))]
  · intro other place isOther
    rw [after.walk_eq isOther, forest.walk_eq isOther]
    simp only [paths isOther (Nat.le_of_eq (length place)), paths isOther (Nat.le_of_eq (length virt)),
      paths isRoot (Nat.le_of_eq (length virt)), reached, entries]
    cases hit : follow vm.mem other (pathOf place) with
    | none =>
      have unseen : ¬ (SameSlot place virt ∧ follow vm.mem other (pathOf virt) = some table) := by
        rintro ⟨same, seen⟩
        rw [same.1, seen] at hit
        cases hit
      rw [if_neg unseen]
      rfl
    | some found =>
      simp only [Option.bind_some, put]
      by_cases slot : found = table ∧ pml1GetIndex place = pml1GetIndex virt
      · have same := (forest.separated.apart isOther isRoot (Nat.le_of_eq (length place)) (Nat.le_of_eq (length virt))
          (slot.1 ▸ hit) reached).1
        rw [if_pos slot, if_pos ⟨⟨same, slot.2⟩, by rw [← same, hit, slot.1]⟩]
      · have unseen : ¬ (SameSlot place virt ∧ follow vm.mem other (pathOf virt) = some table) := by
          rintro ⟨same, seen⟩
          rw [← same.1, hit] at seen
          exact slot ⟨Option.some.inj seen, same.2⟩
        rw [if_neg slot, if_neg unseen]
  · intro other index isOther _
    have different : other ≠ table := above isOther (show ([] : List Nat).length < 3 by simp) rfl
    rw [entries]
    simp only [put, different, false_and, if_false]

@[simp] theorem leaf_make (phys : Nat) (isUser : Bool) :
    leaf (pmlMakeEntry phys isUser) = some ⟨wrap phys / 4096 * 4096, true, isUser⟩ := by
  rw [leaf, pmlMakeEntry_address]
  rfl

@[simp] theorem leaf_empty : leaf emptyEntry = none := by decide

theorem vmmMapPage_ok {vm after : Vm} (forest : Forest roots vm) {root virt phys : Nat} {isUser : Bool}
    (isRoot : roots root) (ran : vmmMapPage vm (mmapPhysToIo root) virt phys isUser = .ok after) :
    Mapped roots vm root virt (some ⟨wrap phys / 4096 * 4096, true, isUser⟩) after := by
  obtain ⟨⟨pml3Range, vm3⟩, first, ran⟩ := Outcome.bind_ok ran
  obtain ⟨⟨pml2Range, vm2⟩, second, ran⟩ := Outcome.bind_ok ran
  obtain ⟨⟨pml1Range, vm1⟩, third, ran⟩ := Outcome.bind_ok ran
  dsimp only at second third ran
  obtain ⟨pml3, base, step3⟩ := vmmGetPmlAlloc_ok forest isRoot (show ([] : List Nat).length < 3 by simp) rfl
    (pmlxGetIndex_lt virt 3) first
  rw [base] at second
  obtain ⟨pml2, base, step2⟩ :=
    vmmGetPmlAlloc_ok step3.forest isRoot (by simp) step3.reached (pmlxGetIndex_lt virt 2) second
  rw [base] at third
  obtain ⟨pml1, base, step1⟩ :=
    vmmGetPmlAlloc_ok step2.forest isRoot (by simp) step2.reached (pmlxGetIndex_lt virt 1) third
  rw [base] at ran
  obtain rfl := Except.ok.inj ran
  have stored := step1.forest.store isRoot virt step1.reached (pmlMakeEntry_fits phys isUser)
  have descent := (step3.grows.trans step2.grows).trans step1.grows
  rw [leaf_make] at stored
  refine ⟨stored.forest, descent.trans stored.grows, stored.reached, ?_, ?_⟩
  · intro other place isOther
    rw [stored.walks other place isOther, step1.walks other place isOther, step2.walks other place isOther,
      step3.walks other place isOther]
  · intro other index isOther present
    have isTable (mem : Bytes) : IsTable roots mem other := ⟨other, [], isOther, by simp, rfl⟩
    have apart3 := step3.forest.below_root isRoot isOther (by simp) step3.reached
    have apart2 := step2.forest.below_root isRoot isOther (by simp) step2.reached
    have level3 := step3.slots other index (isTable _) fun same => by
      rw [← (Prod.mk.inj same).1, ← (Prod.mk.inj same).2]
      exact present same
    have level2 := step2.slots other index (isTable _) fun same => absurd (Prod.mk.inj same).1.symm apart3
    have level1 := step1.slots other index (isTable _) fun same => absurd (Prod.mk.inj same).1.symm apart2
    have upper := level1.trans (level2.trans level3)
    refine (stored.slots other index isOther fun same => ?_).trans upper
    rw [upper]
    exact present same

theorem vmmGetPml_ok {vm : Vm} (forest : Forest roots vm) {root table index : Nat} {path : List Nat}
    (isRoot : roots root) (short : path.length < 3) (reached : follow vm.mem root path = some table)
    (inside : index < 512) (present : (vmmGetPml vm.mem (mmapPhysToIo table) index).length ≠ 0) :
    ∃ next, (vmmGetPml vm.mem (mmapPhysToIo table) index).base = mmapPhysToIo next ∧
      follow vm.mem root (path ++ [index]) = some next := by
  obtain ⟨aligned, small⟩ := forest.table_aligned ⟨root, path, isRoot, by omega, reached⟩
  simp only [vmmGetPml, pmlEntry_eq aligned small inside] at present ⊢
  split at present
  next linked =>
    rw [if_pos linked]
    refine ⟨_, rfl, ?_⟩
    rw [follow, follow_snoc, show RadixForest.follow child _ root path = _ from reached, Option.bind_some, child,
      if_pos linked]
    rfl
  next => exact absurd rfl present

theorem vmmUnmapPage_ok {vm after : Vm} (forest : Forest roots vm) {root virt : Nat} (isRoot : roots root)
    (ran : vmmUnmapPage vm (mmapPhysToIo root) virt = .ok after) : Mapped roots vm root virt none after := by
  simp only [vmmUnmapPage] at ran
  obtain ⟨_, found3, ran⟩ := Outcome.bind_ok ran
  obtain ⟨_, found2, ran⟩ := Outcome.bind_ok ran
  obtain ⟨_, found1, ran⟩ := Outcome.bind_ok ran
  obtain ⟨pml3, base, reached3⟩ :=
    vmmGetPml_ok forest isRoot (show ([] : List Nat).length < 3 by simp) rfl (pmlxGetIndex_lt virt 3) (check_ok found3)
  rw [show pml4GetIndex virt = pmlxGetIndex virt 3 from rfl, base] at found2 found1 ran
  obtain ⟨pml2, base, reached2⟩ := vmmGetPml_ok forest isRoot (by simp) reached3 (pmlxGetIndex_lt virt 2)
    (check_ok found2)
  rw [show pml3GetIndex virt = pmlxGetIndex virt 2 from rfl, base] at found1 ran
  obtain ⟨pml1, base, reached1⟩ := vmmGetPml_ok forest isRoot (by simp) reached2 (pmlxGetIndex_lt virt 1)
    (check_ok found1)
  rw [show pml2GetIndex virt = pmlxGetIndex virt 1 from rfl, base] at ran
  obtain rfl := Except.ok.inj ran
  have stored := forest.store isRoot virt reached1 emptyEntry_fits
  rwa [leaf_empty] at stored

private theorem vmmGetPml_present {vm : Vm} (forest : Forest roots vm) {root table index next : Nat} {path : List Nat}
    (isRoot : roots root) (short : path.length < 3) (reached : follow vm.mem root path = some table)
    (inside : index < 512) (found : child (tableEntry vm.mem table index) = some next) :
    vmmGetPml vm.mem (mmapPhysToIo table) index = ⟨mmapPhysToIo next, pageSize⟩ := by
  obtain ⟨aligned, small⟩ := forest.table_aligned ⟨root, path, isRoot, by omega, reached⟩
  unfold child at found
  split at found
  next linked =>
    obtain rfl := Option.some.inj found
    simp only [vmmGetPml, pmlEntry_eq aligned small inside, linked, if_true]
    rfl
  next => cases found

/-- The three tables on the way to a page, when they exist. -/
structure Links (mem : Bytes) (root virt pml3 pml2 pml1 : Nat) : Prop where
  top : child (tableEntry mem root (pml4GetIndex virt)) = some pml3
  middle : child (tableEntry mem pml3 (pml3GetIndex virt)) = some pml2
  bottom : child (tableEntry mem pml2 (pml2GetIndex virt)) = some pml1
  reached3 : follow mem root [pml4GetIndex virt] = some pml3
  reached2 : follow mem root [pml4GetIndex virt, pml3GetIndex virt] = some pml2

theorem follow_links {mem : Bytes} {root virt : Nat} (tables : (follow mem root (pathOf virt)).isSome) :
    ∃ pml3 pml2 pml1, Links mem root virt pml3 pml2 pml1 := by
  obtain ⟨pml1, reached⟩ := Option.isSome_iff_exists.mp tables
  rw [show pathOf virt = [pml4GetIndex virt, pml3GetIndex virt] ++ [pml2GetIndex virt] from rfl, follow,
    follow_snoc] at reached
  obtain ⟨pml2, reached2, link1⟩ := Option.bind_eq_some_iff.mp reached
  have top := reached2
  rw [show [pml4GetIndex virt, pml3GetIndex virt] = [pml4GetIndex virt] ++ [pml3GetIndex virt] from rfl,
    follow_snoc] at top
  obtain ⟨pml3, reached3, link2⟩ := Option.bind_eq_some_iff.mp top
  have link3 : child (tableEntry mem root (pml4GetIndex virt)) = some pml3 := by
    simpa [RadixForest.follow] using reached3
  exact ⟨pml3, pml2, pml1, link3, link2, link1, reached3, reached2⟩

theorem vmmUnmapPage_returns {vm : Vm} (forest : Forest roots vm) {root virt : Nat} (isRoot : roots root)
    (tables : (follow vm.mem root (pathOf virt)).isSome) :
    ∃ after, vmmUnmapPage vm (mmapPhysToIo root) virt = .ok after := by
  obtain ⟨pml3, pml2, pml1, links⟩ := follow_links tables
  have first := vmmGetPml_present forest isRoot (show ([] : List Nat).length < 3 by simp) rfl
    (pmlxGetIndex_lt virt 3) links.top
  have second := vmmGetPml_present forest isRoot (by simp) links.reached3 (pmlxGetIndex_lt virt 2) links.middle
  have third := vmmGetPml_present forest isRoot (by simp) links.reached2 (pmlxGetIndex_lt virt 1) links.bottom
  have positive : pageSize ≠ 0 := by decide
  refine ⟨{ vm with mem := setPmlEntry vm.mem (mmapPhysToIo pml1) (pml1GetIndex virt) emptyEntry }, ?_⟩
  simp only [vmmUnmapPage, pml4GetIndex, pml3GetIndex, pml2GetIndex, first, second, third, check_true _ positive]
  rfl

end Navy.Paging
