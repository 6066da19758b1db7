import Navy.Proofs.Supply

/-! All address spaces of a run together: user halves are private, the kernel
half is common, whichever space an update goes through. -/

namespace Navy.SpaceSharing
open Paging AddressSpace

/-- The kernel's own space and those handed out by `vmm_space_create` so far. -/
def Pml (boot : Vm) (spaces : List Nat) (pml : Nat) : Prop := pml = boot.kernelPml4 ∨ pml ∈ spaces

/-- An update of user-half addresses of a created space. -/
structure UserStep (spaces : List Nat) (vm : Vm) (pml : Nat) (update : Update) (after : Vm) : Prop where
  member : pml ∈ spaces
  proper : update.Proper
  half : ∀ virt, update.range.base ≤ virt → virt < update.range.base + update.range.length → UserHalf virt
  ran : update.perform pml vm = .ok after

/-- An update, through any space, of kernel-half addresses that were mapped at boot. -/
structure KernelStep (boot : Vm) (spaces : List Nat) (vm : Vm) (pml : Nat) (update : Update) (after : Vm) : Prop where
  member : Pml boot spaces pml
  proper : update.Proper
  half : ∀ virt, update.range.base ≤ virt → virt < update.range.base + update.range.length →
    ¬ UserHalf virt ∧ (walk boot.mem (vmmSwitchSpace boot.kernelPml4) virt).isSome
  ran : update.perform pml vm = .ok after

inductive Run (boot : Vm) : List Nat → Vm → Prop where
  | start : Run boot [] boot
  | create {spaces : List Nat} {vm after : Vm} {pml : Nat} (before : Run boot spaces vm)
      (ran : vmmSpaceCreate vm = .ok (pml, after)) : Run boot (pml :: spaces) after
  | user {spaces : List Nat} {vm after : Vm} {pml : Nat} {update : Update} (before : Run boot spaces vm)
      (step : UserStep spaces vm pml update after) : Run boot spaces after
  | kernel {spaces : List Nat} {vm after : Vm} {pml : Nat} {update : Update} (before : Run boot spaces vm)
      (step : KernelStep boot spaces vm pml update after) : Run boot spaces after

theorem Update.range_proper {update : Update} (proper : update.Proper) : Paging.Proper update.range := by
  cases update with
  | map virt phys isUser => exact proper.1
  | unmap range => exact proper

/-- The tables CR3 may name. -/
def Root (boot : Vm) (spaces : List Nat) (root : Nat) : Prop :=
  root = vmmSwitchSpace boot.kernelPml4 ∨ root ∈ spaces.map vmmSwitchSpace

structure Sharing (boot : Vm) (spaces : List Nat) (vm : Vm) : Prop where
  family : Spaces (Root boot spaces) vm
  kernel : KernelSpace (vmmSwitchSpace boot.kernelPml4) vm
  same : vm.kernelPml4 = boot.kernelPml4
  pointers : ∀ pml, Pml boot spaces pml → mmapPhysToIo (vmmSwitchSpace pml) = pml
  apart : ∀ pml ∈ spaces, vmmSwitchSpace pml ≠ vmmSwitchSpace boot.kernelPml4
  linked : ∀ virt, (walk boot.mem (vmmSwitchSpace boot.kernelPml4) virt).isSome →
    (tableEntry vm.mem (vmmSwitchSpace boot.kernelPml4) (pml4GetIndex virt)).present = true

theorem Root.of_pml {boot : Vm} {spaces : List Nat} {pml : Nat} (member : Pml boot spaces pml) :
    Root boot spaces (vmmSwitchSpace pml) := by
  rcases member with rfl | member
  · exact .inl rfl
  · exact .inr (List.mem_map_of_mem member)

/-- What translates has a top-level entry. -/
private theorem walk_linked {roots : Nat → Prop} {vm : Vm} (forest : Forest roots vm) {root virt : Nat}
    (isRoot : roots root) (translates : (walk vm.mem root virt).isSome) :
    (tableEntry vm.mem root (pml4GetIndex virt)).present = true := by
  rw [forest.walk_eq isRoot] at translates
  simp only [follow, pathOf, RadixForest.follow] at translates
  rw [← child_present]
  cases linked : child (tableEntry vm.mem root (pml4GetIndex virt)) with
  | some table => rfl
  | none =>
    rw [linked] at translates
    cases translates

theorem Sharing.start {mem : Bytes} {pmm : Pmm} {handover : Handover} {boot : Vm} (sized : pmm.Sized)
    (addressable : ∀ mmap ∈ handover.mmap, Addressable mmap) (booted : vmmInit mem pmm handover = .ok boot) :
    Sharing boot [] boot := by
  obtain ⟨kernel, spaces, own⟩ := vmmInit_ok sized addressable booted
  have small := (spaces.aligned kernel rfl).2
  have root : vmmSwitchSpace boot.kernelPml4 = kernel := by
    rw [own.pml4, vmmSwitchSpace, phys_io _ small]
  have only : Root boot [] = (· = kernel) := by
    funext other
    simp [Root, root]
  refine ⟨only ▸ spaces, root ▸ own, rfl, ?_, by simp, ?_⟩
  · rintro pml (rfl | member)
    · rw [root, own.pml4]
    · cases member
  · exact fun virt translates => walk_linked spaces.toForest root translates

/-- A step through `pml` on addresses it may touch keeps the picture. -/
private theorem Sharing.update {boot vm after : Vm} {spaces : List Nat} (sharing : Sharing boot spaces vm)
    {root : Nat} {pages : Nat → Prop}
    (touched : Touched (Root boot spaces) vm root pages after)
    (slot : root = vmmSwitchSpace boot.kernelPml4 → ∀ virt, Canonical virt → pages (virt / 4096) →
      255 ≠ pml4GetIndex virt) :
    Sharing boot spaces after := by
  have isKernel : Root boot spaces (vmmSwitchSpace boot.kernelPml4) := .inl rfl
  refine ⟨touched.spaces, ⟨touched.grows.kernel.trans sharing.kernel.pml4, ?_⟩, touched.grows.kernel.trans sharing.same,
    sharing.pointers, sharing.apart, ?_⟩
  · rw [touched.slots _ 255 isKernel fun same => slot same.symm]
    exact sharing.kernel.hole
  · intro virt translates
    obtain ⟨table, linked⟩ := Option.isSome_iff_exists.mp (child_present.mpr (sharing.linked virt translates))
    exact child_present.mp (Option.isSome_iff_exists.mpr ⟨table, touched.grows.child isKernel linked⟩)

theorem Sharing.create {boot vm after : Vm} {spaces : List Nat} {pml : Nat} (sharing : Sharing boot spaces vm)
    (ran : vmmSpaceCreate vm = .ok (pml, after)) : Sharing boot (pml :: spaces) after := by
  have isKernel : Root boot spaces (vmmSwitchSpace boot.kernelPml4) := .inl rfl
  obtain ⟨fresh, rfl, created⟩ := vmmSpaceCreate_ok sharing.family isKernel sharing.kernel ran
  have small := (created.spaces.aligned fresh (.inr rfl)).2
  have root : vmmSwitchSpace (mmapPhysToIo fresh) = fresh := phys_io _ small
  have isTable {other : Nat} (isOther : Root boot spaces other) : IsTable (Root boot spaces) vm.mem other :=
    ⟨other, [], isOther, by simp, rfl⟩
  have more : Root boot (mmapPhysToIo fresh :: spaces) = fun other => Root boot spaces other ∨ other = fresh := by
    funext other
    simp only [Root, List.map_cons, List.mem_cons, root]
    exact propext ((or_congr_right or_comm).trans or_assoc.symm)
  refine ⟨more ▸ created.spaces, created.kernel, created.grows.kernel.trans sharing.same, ?_, ?_, ?_⟩
  · rintro other (same | member)
    · exact sharing.pointers other (.inl same)
    · rcases List.mem_cons.mp member with rfl | member
      · rw [root]
      · exact sharing.pointers other (.inr member)
  · intro other member
    rcases List.mem_cons.mp member with rfl | member
    · rw [root]
      exact fun clash => created.unreached (clash ▸ isTable isKernel)
    · exact sharing.apart other member
  · intro virt translates
    rw [created.same _ fun clash => created.unreached (clash ▸ isTable isKernel)]
    exact sharing.linked virt translates

/-- User-half addresses are nobody else's. -/
private theorem Sharing.user {boot vm after : Vm} {spaces : List Nat} {pml : Nat} {update : Update}
    (sharing : Sharing boot spaces vm) (step : UserStep spaces vm pml update after) :
    Updated (Root boot spaces) vm (vmmSwitchSpace pml) (· ∈ update.range.pages) update.target after := by
  have ran := step.ran
  rw [← sharing.pointers pml (.inr step.member)] at ran
  exact Update.updated sharing.family (.of_pml (.inr step.member)) step.proper
    (fun virt low high => .inl (step.half virt low high)) ran

/-- Kernel-half addresses mapped at boot hang below slots all spaces have in common. -/
private theorem Sharing.kernelHalf {boot vm after : Vm} {spaces : List Nat} {pml : Nat} {update : Update}
    (sharing : Sharing boot spaces vm) (step : KernelStep boot spaces vm pml update after) :
    Updated (Root boot spaces) vm (vmmSwitchSpace pml) (· ∈ update.range.pages) update.target after := by
  have ran := step.ran
  rw [← sharing.pointers pml step.member] at ran
  refine Update.updated sharing.family (.of_pml step.member) step.proper (fun virt low high => .inr (.inl ?_)) ran
  obtain ⟨kernel, translates⟩ := step.half virt low high
  have isKernelHalf := (userHalf_index ((Update.range_proper step.proper).canonical virt low high)).mpr kernel
  rw [← child_present, sharing.family.shared _ _ _ (.of_pml step.member) (.inl rfl) isKernelHalf, child_present]
  exact sharing.linked virt translates

/-- Kernel-half pages of an update never lie in the slot copies take along. -/
private theorem KernelStep.slot {boot vm after : Vm} {spaces : List Nat} {pml : Nat} {update : Update}
    (step : KernelStep boot spaces vm pml update after) {virt : Nat} (canonical : Canonical virt)
    (inside : virt / 4096 ∈ update.range.pages) : 255 ≠ pml4GetIndex virt ∧ ¬ UserHalf virt := by
  have page := Range.mem_pages.mp inside
  have proper := Update.range_proper step.proper
  have base := proper.base
  have length := proper.length
  have half := step.half (virt / 4096 * 4096) (by omega) (by omega)
  have kernel : ¬ UserHalf virt := by
    have := half.1
    simp only [UserHalf] at this ⊢
    omega
  have := (userHalf_index canonical).mpr kernel
  exact ⟨by omega, kernel⟩

theorem Run.sharing {mem : Bytes} {pmm : Pmm} {handover : Handover} {boot : Vm} (sized : pmm.Sized)
    (addressable : ∀ mmap ∈ handover.mmap, Addressable mmap) (booted : vmmInit mem pmm handover = .ok boot)
    {spaces : List Nat} {vm : Vm} (run : Run boot spaces vm) : Sharing boot spaces vm := by
  induction run with
  | start => exact .start sized addressable booted
  | create before ran ih => exact ih.create ran
  | user before step ih =>
    exact ih.update (ih.user step).toTouched fun same => absurd same (ih.apart _ step.member)
  | kernel before step ih =>
    exact ih.update (ih.kernelHalf step).toTouched fun _ virt canonical inside => (step.slot canonical inside).1

/-- Two spaces agree on the kernel half at any time. -/
theorem Sharing.agree {boot vm : Vm} {spaces : List Nat} (sharing : Sharing boot spaces vm) {first second virt : Nat}
    (isFirst : Root boot spaces first) (isSecond : Root boot spaces second) (canonical : Canonical virt)
    (kernel : ¬ UserHalf virt) : walk vm.mem first virt = walk vm.mem second virt := by
  rw [sharing.family.walk_eq isFirst, sharing.family.walk_eq isSecond]
  simp only [follow, pathOf, RadixForest.follow]
  rw [sharing.family.shared first second _ isFirst isSecond ((userHalf_index canonical).mpr kernel)]

/-- At any time all spaces agree on the kernel half, and a page mapped there through
one of them is seen through all, also through those made later. A change to the
user half of one space is seen through no other. -/
theorem spaces_private_and_shared {mem : Bytes} {pmm : Pmm} {handover : Handover} {boot : Vm} (sized : pmm.Sized)
    (addressable : ∀ mmap ∈ handover.mmap, Addressable mmap) (booted : vmmInit mem pmm handover = .ok boot)
    {spaces : List Nat} {vm : Vm} (run : Run boot spaces vm) :
    (∀ first second, Pml boot spaces first → Pml boot spaces second → ∀ virt, Canonical virt → ¬ UserHalf virt →
      walk vm.mem (vmmSwitchSpace first) virt = walk vm.mem (vmmSwitchSpace second) virt) ∧
    (∀ pml update after, UserStep spaces vm pml update after →
      ∀ other, Pml boot spaces other → other ≠ pml → ∀ virt, Canonical virt →
        walk after.mem (vmmSwitchSpace other) virt = walk vm.mem (vmmSwitchSpace other) virt) ∧
    (∀ pml update after, KernelStep boot spaces vm pml update after →
      ∀ other, Pml boot spaces other → ∀ virt, Canonical virt → virt / pageSize ∈ update.range.pages →
        walk after.mem (vmmSwitchSpace other) virt = update.target (virt / pageSize)) := by
  have sharing := run.sharing sized addressable booted
  refine ⟨?_, ?_, ?_⟩
  · intro first second isFirst isSecond virt canonical kernel
    exact sharing.agree (.of_pml isFirst) (.of_pml isSecond) canonical kernel
  · intro pml update after step other isOther different virt canonical
    have updated := sharing.user step
    refine updated.misses _ virt (.of_pml isOther) canonical ?_
    rintro ⟨inside, same | kernel⟩
    · have pointer := sharing.pointers other isOther
      rw [same, sharing.pointers pml (.inr step.member)] at pointer
      exact different pointer.symm
    · have page := Range.mem_pages.mp inside
      have proper := Update.range_proper step.proper
      have base := proper.base
      have length := proper.length
      have half := step.half (virt / 4096 * 4096) (by omega) (by omega)
      simp only [UserHalf] at half kernel
      omega
  · intro pml update after step other isOther virt canonical inside
    exact (sharing.kernelHalf step).hits _ virt (.of_pml isOther) canonical inside (.inr (step.slot canonical inside).2)

private def onePage : Update := .map ⟨0x400000, 0x1000⟩ ⟨0x200000, 0x1000⟩ true

theorem spaces_private_and_shared_gigabyte : ∃ pmm handover boot pml vm after,
    pmmInit gigabyte = .ok (pmm, handover) ∧ vmmInit (fun _ => 0) pmm handover = .ok boot ∧ Run boot [pml] vm ∧
    UserStep [pml] vm pml onePage after ∧
    walk after.mem (vmmSwitchSpace boot.kernelPml4) 0x400000 = walk vm.mem
      (vmmSwitchSpace boot.kernelPml4) 0x400000 := by
  obtain ⟨pmm, boot, placed, sized, booted, supply⟩ := gigabyte_vm (fun _ => 0)
  obtain ⟨pml, vm, created, supply⟩ := vmmSpaceCreate_returns (supply.less (show 23999 + 1 ≤ 24000 by decide))
  have addressable : ∀ mmap ∈ [gigabyteEntry], Addressable mmap := by
    simp [Addressable, gigabyteEntry]
  have run := Run.start.create created
  have sharing := run.sharing sized addressable booted
  have member : pml ∈ [pml] := List.mem_singleton_self pml
  have low {virt : Nat} (high : virt < 0x401000) : UserHalf virt := by
    simp only [UserHalf]
    omega
  have mapped : ∃ after, vmmMapRange vm (mmapPhysToIo (vmmSwitchSpace pml)) ⟨0x400000, 0x1000⟩ ⟨0x200000, 0x1000⟩ true =
      .ok after ∧ Supply after.pmm 0 := by
    have place {index : Nat} (inside : index < 0x1000 / 4096) : UserHalf (0x400000 + index * 4096) := low (by omega)
    have tables : 0 + 3 * leafTables (0x400000 / 4096) (0x1000 / 4096) ≤ 23999 := by decide
    refine vmmMapRange_returns 0x400000 sharing.family (.of_pml (.inr member)) (by decide) rfl (by decide)
      (fun index (inside : index < 0x1000 / 4096) => ?_) (fun index inside => .inl (place inside))
      (fun index inside => .inl (place inside)) (supply.less tables)
    obtain rfl : index = 0 := by omega
    decide +kernel
  rw [sharing.pointers pml (.inr member)] at mapped
  obtain ⟨after, ran, _⟩ := mapped
  have step : UserStep [pml] vm pml onePage after := by
    refine ⟨member, ⟨⟨by decide, by decide, by decide, fun virt _ high => .inl (low high)⟩, by decide, rfl, by decide⟩,
      fun virt _ high => low high, ran⟩
  have apart := sharing.apart pml member
  have other : boot.kernelPml4 ≠ pml := fun same => apart (by rw [same])
  exact ⟨pmm, _, boot, pml, vm, after, placed, booted, run, step,
    (spaces_private_and_shared sized addressable booted run).2.1 pml onePage after step _ (.inl rfl) other _
      (.inl (low (by decide)))⟩

end Navy.SpaceSharing
