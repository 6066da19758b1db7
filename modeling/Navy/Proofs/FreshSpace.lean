import Navy.Proofs.Supply

/-! New address spaces against the boundary of the two halves. The copy of the
kernel's top-level entries begins one slot below the kernel half. -/

namespace Navy.Paging
open Outcome

/-- Any mappings and unmappings in the kernel space after boot. -/
inductive KernelRun (boot : Vm) : Vm → Prop where
  | start : KernelRun boot boot
  | map {vm after : Vm} (virt phys : Range) (isUser : Bool) (before : KernelRun boot vm)
      (ran : vmmMapRange vm vm.kernelPml4 virt phys isUser = .ok after) : KernelRun boot after
  | unmap {vm after : Vm} (range : Range) (before : KernelRun boot vm)
      (ran : vmmUnmap vm vm.kernelPml4 range = .ok after) : KernelRun boot after

/-- The kernel's tables, whose last slot of the user half is as boot left it or
leads all the way down somewhere. -/
structure LastSlot (kernel : Nat) (vm : Vm) : Prop where
  forest : Forest (· = kernel) vm
  pml4 : vm.kernelPml4 = mmapPhysToIo kernel
  last : tableEntry vm.mem kernel 255 = emptyEntry ∨
    ∃ virt, pml4GetIndex virt = 255 ∧ (follow vm.mem kernel (pathOf virt)).isSome

variable {kernel : Nat} {vm after boot : Vm}

/-- Whoever uses the slot has made the tables below it. -/
theorem Mapped.lastSlot {virt : Nat} {target : Option Translation} (slot : LastSlot kernel vm)
    (mapped : Mapped (· = kernel) vm kernel virt target after) : LastSlot kernel after := by
  refine ⟨mapped.forest, mapped.grows.kernel.trans slot.pml4, ?_⟩
  by_cases here : pml4GetIndex virt = 255
  · exact .inr ⟨virt, here, Option.isSome_iff_exists.mpr mapped.reached⟩
  · rcases slot.last with empty | ⟨other, index, tables⟩
    · left
      rw [mapped.slots kernel 255 rfl fun same => absurd (Prod.mk.inj same).2.symm here]
      exact empty
    · obtain ⟨table, reached⟩ := Option.isSome_iff_exists.mp tables
      have kept := mapped.grows.paths kernel _ table rfl (by simp [pathOf]) reached
      exact .inr ⟨other, index, Option.isSome_iff_exists.mpr ⟨table, kept⟩⟩

theorem LastSlot.map {virt phys : Range} {isUser : Bool} (slot : LastSlot kernel vm)
    (ran : vmmMapRange vm (mmapPhysToIo kernel) virt phys isUser = .ok after) : LastSlot kernel after := by
  obtain ⟨⟨⟩, -, ran⟩ := bind_ok ran
  refine foldlM_keeps (fun state index next _ kept turn => ?_) slot ran
  exact (vmmMapPage_ok kept.forest rfl turn).lastSlot kept

theorem LastSlot.unmap {range : Range} (slot : LastSlot kernel vm)
    (ran : vmmUnmap vm (mmapPhysToIo kernel) range = .ok after) :
    LastSlot kernel after := by
  refine foldlM_keeps (fun state index next _ kept turn => ?_) slot ran
  exact (vmmUnmapPage_ok kept.forest rfl turn).lastSlot kept

theorem LastSlot.entry {mmap : MmapEntry} (slot : LastSlot kernel vm) (ran : vmmInitEntry vm mmap = .ok after) :
    LastSlot kernel after := by
  simp only [vmmInitEntry] at ran
  split at ran
  next =>
    obtain ⟨middle, first, last⟩ := bind_ok ran
    rw [slot.pml4] at first
    have window := slot.map first
    rw [window.pml4] at last
    exact window.map last
  next =>
    obtain ⟨middle, first, last⟩ := bind_ok ran
    obtain rfl := Except.ok.inj first
    rw [slot.pml4] at last
    exact slot.map last

theorem vmmInit_lastSlot {mem : Bytes} {pmm : Pmm} {handover : Handover} (sized : pmm.Sized)
    (ran : vmmInit mem pmm handover = .ok vm) : ∃ kernel, LastSlot kernel vm := by
  obtain ⟨⟨range, middle⟩, allocated, ran⟩ := bind_ok ran
  obtain ⟨_, positive, ran⟩ := bind_ok ran
  obtain ⟨low, mapped, ran⟩ := bind_ok ran
  obtain ⟨spaces, own⟩ := vmmInit_root sized allocated (check_ok positive)
  have start : LastSlot range.base _ := ⟨spaces.toForest, own.pml4, .inl own.hole⟩
  exact ⟨range.base, foldlM_keeps (fun state mmap next _ kept turn => LastSlot.entry kept turn) (start.map mapped) ran⟩

theorem KernelRun.lastSlot (run : KernelRun boot vm) (slot : LastSlot kernel boot) : LastSlot kernel vm := by
  induction run with
  | start => exact slot
  | map virt phys isUser before ran ih =>
    rw [ih.pml4] at ran
    exact ih.map ran
  | unmap range before ran ih =>
    rw [ih.pml4] at ran
    exact ih.unmap ran

/-- A list of mappings in one space: where, onto what, and for whom. -/
def mapCalls (vm : Vm) (space : Nat) (calls : List (Range × Range × Bool)) : Checked Vm :=
  calls.foldlM (fun vm call => vmmMapRange vm space call.1 call.2.1 call.2.2) vm

/-- What is expected of a space just made: nothing in the user half, the kernel's
translations in the kernel half, and a user half of its own. -/
structure Fresh (pml : Nat) (after : Vm) : Prop where
  empty : ∀ virt, UserHalf virt → walk after.mem (vmmSwitchSpace pml) virt = none
  same : ∀ virt, Canonical virt → ¬ UserHalf virt →
    walk after.mem (vmmSwitchSpace pml) virt = walk after.mem (vmmSwitchSpace after.kernelPml4) virt
  own : ∀ calls later, (∀ call ∈ calls, call.1.base + call.1.length ≤ 2 ^ 47) → mapCalls after pml calls = .ok later →
    ∀ virt, Canonical virt →
      walk later.mem (vmmSwitchSpace after.kernelPml4) virt = walk after.mem (vmmSwitchSpace after.kernelPml4) virt

private theorem user_page {range : Range} (user : range.base + range.length ≤ 2 ^ 47) {index : Nat}
    (inside : index < range.length / 4096) :
    UserHalf (wrap (index * pageSize + alignDown range.base pageSize)) := by
  rw [alignDown_page]
  simp only [UserHalf, wrap, pageSize]
  omega

/-- Mappings in the user half of one space are not seen in another. -/
theorem mapCalls_private {roots : Nat → Prop} {root other : Nat} (isRoot : roots root) (isOther : roots other)
    (apart : other ≠ root) {calls : List (Range × Range × Bool)}
    (user : ∀ call ∈ calls, call.1.base + call.1.length ≤ 2 ^ 47) (spaces : Spaces roots vm)
    (ran : mapCalls vm (mmapPhysToIo root) calls = .ok after) {virt : Nat} (canonical : Canonical virt) :
    walk after.mem other virt = walk vm.mem other virt := by
  have step (state : Vm) (call : Range × Range × Bool) (next : Vm) (member : call ∈ calls)
      (kept : Spaces roots state ∧ walk state.mem other virt = walk vm.mem other virt)
      (turn : vmmMapRange state (mmapPhysToIo root) call.1 call.2.1 call.2.2 = .ok next) :
      Spaces roots next ∧ walk next.mem other virt = walk vm.mem other virt := by
    have page {index : Nat} (inside : index < call.1.length / 4096) := user_page (user call member) inside
    have touched := vmmMapRange_touched kept.1 isRoot turn (fun _ _ => rfl) (fun index inside => .inl (page inside))
      (fun index inside => .inl (page inside))
    refine ⟨touched.spaces, (touched.misses other virt isOther canonical ?_).trans kept.2⟩
    rintro ⟨⟨index, inside, same⟩, seen⟩
    have half := page inside
    have outside := seen.resolve_left apart
    simp only [UserHalf] at half outside
    omega
  exact (foldlM_keeps step ⟨spaces, rfl⟩ ran).2

/-- A space made while the slot is unused is as expected. -/
theorem LastSlot.fresh {pml : Nat} (slot : LastSlot kernel vm) (unused : tableEntry vm.mem kernel 255 = emptyEntry)
    (ran : vmmSpaceCreate vm = .ok (pml, after)) : Fresh pml after := by
  obtain ⟨fresh, rfl, created⟩ := vmmSpaceCreate_ok (.alone slot.forest) rfl ⟨slot.pml4, unused⟩ ran
  have apart : kernel ≠ fresh := fun clash => created.unreached ⟨kernel, [], rfl, by simp, congrArg some clash⟩
  have root : vmmSwitchSpace (mmapPhysToIo fresh) = fresh := phys_io _ (created.spaces.aligned fresh (.inr rfl)).2
  have kernelRoot : vmmSwitchSpace after.kernelPml4 = kernel := by
    rw [created.kernel.pml4]
    exact phys_io _ (created.spaces.aligned kernel (.inl rfl)).2
  refine ⟨?_, ?_, ?_⟩
  · rw [root]
    exact created.empty
  · rw [root, kernelRoot]
    intro virt canonical kernelHalf
    rw [created.spaces.walk_eq (.inr rfl), created.spaces.walk_eq (.inl rfl)]
    simp only [follow, pathOf, RadixForest.follow]
    rw [created.spaces.shared fresh kernel _ (.inr rfl) (.inl rfl) ((userHalf_index canonical).mpr kernelHalf)]
  · rw [kernelRoot]
    intro calls later user mapped virt canonical
    exact mapCalls_private (.inr rfl) (.inl rfl) apart user created.spaces mapped canonical

/-- Two roots that agree in a present entry map the pages behind it alike. -/
theorem vmmMapPage_shared (vm : Vm) {first second virt : Nat} (phys : Nat) (isUser : Bool)
    (same : pmlEntry vm.mem first (pml4GetIndex virt) = pmlEntry vm.mem second (pml4GetIndex virt))
    (present : (pmlEntry vm.mem second (pml4GetIndex virt)).present = true) :
    vmmMapPage vm first virt phys isUser = vmmMapPage vm second virt phys isUser := by
  have lookup : vmmGetPmlAlloc vm first (pml4GetIndex virt) true = vmmGetPmlAlloc vm second
    (pml4GetIndex virt) true := by
    simp only [vmmGetPmlAlloc, same, present, if_true]
  unfold vmmMapPage
  rw [lookup]

/-- The page of the last slot that shares its tables with `virt`. -/
private def lastPage (virt : Nat) : Nat := 255 * 2 ^ 39 + wrap virt % 2 ^ 39 / 4096 * 4096

private theorem lastPage_path {virt : Nat} (slot : pml4GetIndex virt = 255) : pathOf (lastPage virt) = pathOf virt := by
  simp only [pathOf, pml4GetIndex, pml3GetIndex, pml2GetIndex, List.cons.injEq, and_true, pmlxGetIndex_eq, wrap,
    lastPage] at slot ⊢
  omega

private theorem lastPage_half {virt : Nat} : UserHalf (lastPage virt) := by
  simp only [UserHalf, lastPage]
  omega

private theorem lastPage_aligned {virt : Nat} : alignDown (lastPage virt) pageSize = lastPage virt := by
  rw [alignDown_page]
  simp only [wrap, lastPage]
  omega

/-- Whatever the slot holds, the new space gets it and the kernel's tables stay. -/
theorem LastSlot.copied {pml : Nat} (slot : LastSlot kernel vm) (ran : vmmSpaceCreate vm = .ok (pml, after)) :
    Forest (· = kernel) after ∧ after.kernelPml4 = mmapPhysToIo kernel ∧
      (∀ path table, path.length ≤ 3 → follow vm.mem kernel path = some table →
        follow after.mem kernel path = some table) ∧
      pmlEntry after.mem pml 255 = pmlEntry after.mem (mmapPhysToIo kernel) 255 := by
  obtain ⟨fresh, zeroed, mem, rfl, rfl, claimed, entries, -⟩ :=
    vmmSpaceCreate_copied (.alone slot.forest) rfl slot.pml4 ran
  have apart : kernel ≠ fresh := fun clash => claimed.unreached ⟨kernel, [], rfl, by simp, congrArg some clash⟩
  have small := claimed.small
  have aligned := slot.forest.aligned kernel rfl
  have kept (table : Nat) (isTable : IsTable (· = kernel) zeroed.mem table) (index : Nat) :
      tableEntry mem table index = tableEntry zeroed.mem table index := by
    have other : table ≠ fresh := fun clash => claimed.unreached (clash ▸ (claimed.tables table).mp isTable)
    rw [entries, if_neg fun both => other both.1]
  refine ⟨claimed.forest.kept kept claimed.forest.sized fun _ held =>
    held, claimed.grows.kernel.trans slot.pml4, ?_, ?_⟩
  · intro path table short reached
    rw [follow_kept kept rfl (by omega)]
    exact claimed.grows.paths kernel path table rfl short reached
  · rw [pmlEntry_eq claimed.aligned (by omega) (by omega), pmlEntry_eq aligned.1 aligned.2 (by omega), entries, entries,
      if_pos (by omega), if_neg fun both => apart both.1]

/-- A space made while the slot is in use shares it. -/
theorem LastSlot.stale {pml virt : Nat} (slot : LastSlot kernel vm) (index : pml4GetIndex virt = 255)
    (tables : (follow vm.mem kernel (pathOf virt)).isSome) (ran : vmmSpaceCreate vm = .ok (pml, after)) :
    ¬ Fresh pml after := by
  obtain ⟨forest, pml4, kept, copy⟩ := slot.copied ran
  have aligned := forest.aligned kernel rfl
  obtain ⟨table, reached⟩ := Option.isSome_iff_exists.mp tables
  rw [← lastPage_path index] at reached
  have still := Option.isSome_iff_exists.mpr ⟨table, kept _ table (by simp [pathOf]) reached⟩
  have top : pml4GetIndex (lastPage virt) = 255 := (List.cons.inj (lastPage_path index)).1.trans index
  have present : (pmlEntry after.mem (mmapPhysToIo kernel) (pml4GetIndex (lastPage virt))).present = true := by
    obtain ⟨pml3, pml2, pml1, links⟩ := follow_links still
    rw [pmlEntry_eq aligned.1 aligned.2 (by omega)]
    exact child_present.mp (Option.isSome_iff_exists.mpr ⟨pml3, links.top⟩)
  rw [← top] at copy
  -- a mapping of the page that differs from what the kernel has there
  obtain ⟨phys, whole, small, other⟩ : ∃ phys, alignDown phys pageSize = phys ∧ phys ≤ 4096 ∧
      some (Translation.mk phys true true) ≠ walk after.mem kernel (lastPage virt) := by
    by_cases zero : some (Translation.mk 0 true true) = walk after.mem kernel (lastPage virt)
    · refine ⟨4096, by decide, by decide, ?_⟩
      rw [← zero]
      simp
    · exact ⟨0, by decide, by decide, zero⟩
  obtain ⟨mem, stored⟩ := vmmMapPage_stores forest rfl phys true still
  have mapped := vmmMapPage_ok forest rfl stored
  have mapping : mapCalls after pml [(⟨lastPage virt, 4096⟩, ⟨phys, 4096⟩, true)] = .ok { after with mem } := by
    unfold mapCalls
    rw [List.foldlM_cons, vmmMapRange_page _ _ true lastPage_aligned whole,
      vmmMapPage_shared after phys true copy present, stored]
    rfl
  have user : ∀ call ∈ [(Range.mk (lastPage virt) 4096, Range.mk phys 4096, true)],
    call.1.base + call.1.length ≤ 2 ^ 47 := by
    intro call member
    obtain rfl := List.mem_singleton.mp member
    simp only [lastPage]
    omega
  intro expected
  have unseen := expected.own _ _ user mapping (lastPage virt) (.inl lastPage_half)
  have root : vmmSwitchSpace after.kernelPml4 = kernel := by
    rw [pml4]
    exact phys_io _ aligned.2
  rw [root, mapped.walks kernel _ rfl, if_pos ⟨⟨rfl, rfl⟩, rfl⟩] at unseen
  rw [← unseen] at other
  rw [← alignDown_page, whole] at other
  exact other rfl

/-- A new space is as expected exactly when the kernel has nothing in the last slot
of the user half. -/
theorem fresh_space {mem : Bytes} {pmm : Pmm} {handover : Handover} {pml : Nat} (sized : pmm.Sized)
    (booted : vmmInit mem pmm handover = .ok boot) (run : KernelRun boot vm)
    (ran : vmmSpaceCreate vm = .ok (pml, after)) :
    Fresh pml after ↔ (pmlEntry vm.mem vm.kernelPml4 255).present = false := by
  obtain ⟨kernel, start⟩ := vmmInit_lastSlot sized booted
  have slot := run.lastSlot start
  have aligned := slot.forest.aligned kernel rfl
  rw [slot.pml4, pmlEntry_eq aligned.1 aligned.2 (by omega)]
  rcases slot.last with empty | ⟨virt, index, tables⟩
  · rw [empty]
    exact ⟨fun _ => by decide, fun _ => slot.fresh empty ran⟩
  · have used : (tableEntry vm.mem kernel 255).present = true := by
      obtain ⟨pml3, pml2, pml1, links⟩ := follow_links tables
      rw [← index]
      exact child_present.mp (Option.isSome_iff_exists.mpr ⟨pml3, links.top⟩)
    rw [used]
    exact ⟨fun expected => absurd expected (slot.stale index tables ran), fun unused => by cases unused⟩

/-- The gigabyte machine maps a page for its kernel, and then makes a space. -/
theorem gigabyte_maps {virt : Nat} (aligned : alignDown virt pageSize = virt) : ∃ pmm kernel boot vm pml after,
    Pmm.Sized pmm ∧
    vmmInit (fun _ => 0) pmm { gigabyte with mmap := [gigabyteEntry] } = .ok boot ∧ LastSlot kernel boot ∧
    vmmMapRange boot boot.kernelPml4 ⟨virt, 4096⟩ ⟨0, 4096⟩ false = .ok vm ∧
    Mapped (· = kernel) boot kernel virt (some ⟨0, true, false⟩) vm ∧ vmmSpaceCreate vm = .ok (pml, after) := by
  obtain ⟨pmm, boot, -, sized, booted, supply⟩ := gigabyte_vm fun _ => 0
  obtain ⟨kernel, start⟩ := vmmInit_lastSlot sized booted
  obtain ⟨vm, stored, left⟩ :=
    vmmMapPage_returns start.forest rfl virt 0 false (show Supply boot.pmm (23997 + 3) from supply)
  have mapped := vmmMapPage_ok start.forest rfl stored
  have mapping : vmmMapRange boot boot.kernelPml4 ⟨virt, 4096⟩ ⟨0, 4096⟩ false = .ok vm := by
    rw [start.pml4, vmmMapRange_page _ _ false aligned (by decide), stored]
  obtain ⟨pml, after, ran, -⟩ := vmmSpaceCreate_returns (show Supply vm.pmm (23996 + 1) from left)
  exact ⟨pmm, kernel, boot, vm, pml, after, sized, booted, start, mapping, mapped, ran⟩

theorem fresh_space_gigabyte :
    ∃ boot vm pml after, vmmMapRange boot boot.kernelPml4 ⟨0x400000, 4096⟩ ⟨0, 4096⟩ false = .ok vm ∧
    KernelRun boot vm ∧ vmmSpaceCreate vm = .ok (pml, after) ∧
    (Fresh pml after ↔ (pmlEntry vm.mem vm.kernelPml4 255).present = false) := by
  obtain ⟨pmm, kernel, boot, vm, pml, after, sized, booted, -, mapping, -, ran⟩ := @gigabyte_maps 0x400000 (by decide)
  have run : KernelRun boot vm := .map _ _ _ .start mapping
  exact ⟨boot, vm, pml, after, mapping, run, ran, fresh_space sized booted run ran⟩

/-- One page mapped for the kernel high in the user half is enough. -/
theorem fresh_space_stale : ∃ pmm boot vm pml after,
    vmmInit (fun _ => 0) pmm { gigabyte with mmap := [gigabyteEntry] } = .ok boot ∧
    vmmMapRange boot boot.kernelPml4 ⟨0x7fc000000000, 4096⟩ ⟨0, 4096⟩ false = .ok vm ∧ KernelRun boot vm ∧
    vmmSpaceCreate vm = .ok (pml, after) ∧ ¬ Fresh pml after := by
  obtain ⟨pmm, kernel, boot, vm, pml, after, -, booted, start, mapping, mapped, ran⟩ :=
    @gigabyte_maps 0x7fc000000000 (by decide)
  have index : pml4GetIndex 0x7fc000000000 = 255 := by decide
  exact ⟨pmm, boot, vm, pml, after, booted, mapping, .map _ _ _ .start mapping, ran,
    (mapped.lastSlot start).stale index (Option.isSome_iff_exists.mpr mapped.reached) ran⟩

end Navy.Paging
