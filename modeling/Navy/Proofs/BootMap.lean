import Navy.Proofs.PmmInit
import Navy.Proofs.Boot

/-! The direct map as boot leaves it: which pages of memory the kernel space
shows, and which it misses. -/

namespace Navy.Paging
open Outcome

/-- A length counts for its whole pages only. -/
theorem vmmMapRange_whole (vm : Vm) (pml first second length : Nat) (isUser : Bool) :
    vmmMapRange vm pml ⟨first, length⟩ ⟨second, length⟩ isUser =
      vmmMapRange vm pml ⟨first, length / 4096 * 4096⟩ ⟨second, length / 4096 * 4096⟩ isUser := by
  unfold vmmMapRange
  dsimp only
  rw [check_true _ rfl, check_true _ rfl, pageSize, Nat.mul_div_cancel _ (by decide)]

/-- The kernel space shows exactly the pages of `covered` in the direct map, for
the kernel only. -/
structure Direct (kernel : Nat) (covered : Nat → Prop) (vm : Vm) : Prop where
  spaces : Spaces (· = kernel) vm
  own : KernelSpace kernel vm
  shown : ∀ byte, byte < 2 ^ 46 + 8192 → covered (byte / 4096) →
    walk vm.mem kernel (byte + mmapIoBase) = some ⟨byte / 4096 * 4096, true, false⟩
  missed : ∀ byte, byte < 2 ^ 46 + 8192 → ¬ covered (byte / 4096) → walk vm.mem kernel (byte + mmapIoBase) = none

variable {kernel : Nat} {covered : Nat → Prop} {vm after : Vm}

theorem Direct.map (direct : Direct kernel covered vm) {start length : Nat} (aligned : start % 4096 = 0)
    (small : start + length < 2 ^ 46 + 8192)
    (ran : vmmMapRange vm vm.kernelPml4 ⟨mmapPhysToIo start, length⟩ ⟨start, length⟩ false = .ok after) :
    Direct kernel (fun page => covered page ∨ page ∈ (Range.mk start length).pages) after := by
  have high : mmapPhysToIo start = start + mmapIoBase := by
    unfold mmapPhysToIo
    simp only [wrap, mmapIoBase]
    omega
  obtain ⟨spaces, own, -⟩ :=
    vmmMapRange_kernel direct.spaces direct.own ran (fun index => wrap (start + index * 4096 + mmapIoBase))
    (fun index _ => direct_address aligned index) (fun index inside => direct_place (by simp only at inside; omega))
  rw [vmmMapRange_whole, direct.own.pml4] at ran
  have place {byte : Nat} (small : byte < 2 ^ 46 + 8192) : Canonical (byte + mmapIoBase) ∧
    ¬ UserHalf (byte + mmapIoBase) := by
    simp only [Canonical, UserHalf, mmapIoBase]
    omega
  have proper : Proper ⟨mmapPhysToIo start, length / 4096 * 4096⟩ := by
    rw [high]
    refine ⟨?_, Nat.mul_mod_left _ _, ?_, fun virt low below => ?_⟩
    · simp only [mmapIoBase]
      omega
    · simp only [mmapIoBase]
      omega
    · simp only [Canonical, mmapIoBase] at low below ⊢
      omega
  have updated := vmmMapRange_updated proper aligned (by dsimp only; omega) direct.spaces rfl
    (fun _ _ _ => .inr (.inr fun _ same => same)) ran
  have pages (byte : Nat) : (byte + mmapIoBase) / 4096 ∈ (Range.mk (mmapPhysToIo start) (length / 4096 * 4096)).pages ↔
      byte / 4096 ∈ (Range.mk start length).pages := by
    rw [Range.mem_pages, Range.mem_pages, high]
    simp only [mmapIoBase]
    omega
  have other {byte : Nat} (small : byte < 2 ^ 46 + 8192) (outside : byte / 4096 ∉ (Range.mk start length).pages) :
      walk after.mem kernel (byte + mmapIoBase) = walk vm.mem kernel (byte + mmapIoBase) :=
    updated.misses kernel _ rfl (place small).1 fun hit => outside ((pages byte).mp hit.1)
  refine ⟨spaces, own, fun byte small either => ?_, fun byte small neither => ?_⟩
  · by_cases inside : byte / 4096 ∈ (Range.mk start length).pages
    · rw [updated.hits kernel _ rfl (place small).1 ((pages byte).mpr inside) (.inl rfl), mapTarget, high]
      have bounds := Range.mem_pages.mp inside
      simp only [mmapIoBase, Option.some.injEq, Translation.mk.injEq, and_true] at bounds ⊢
      omega
    · rw [other small inside]
      exact direct.shown byte small (either.resolve_right inside)
  · rw [other small fun inside => neither (.inr inside)]
    exact direct.missed byte small fun before => neither (.inl before)

theorem Direct.entry (direct : Direct kernel covered vm) {mmap : MmapEntry} (addressable : Addressable mmap)
    (ran : vmmInitEntry vm mmap = .ok after) :
    Direct kernel (fun page => covered page ∨ page ∈ (initRange mmap).pages) after := by
  obtain ⟨base, length⟩ := initRange_small addressable
  obtain ⟨middle, spaces, own, -, same, last⟩ := vmmInitEntry_last direct.spaces direct.own addressable ran
  have window : Direct kernel covered middle := by
    refine ⟨spaces, own, fun byte small shown => ?_, fun byte small missed => ?_⟩
    · rw [same byte small]
      exact direct.shown byte small shown
    · rw [same byte small]
      exact direct.missed byte small missed
  exact window.map base length last

theorem Direct.congr {other : Nat → Prop} (direct : Direct kernel covered vm)
    (same : ∀ page, covered page ↔ other page) : Direct kernel other vm :=
  ⟨direct.spaces, direct.own, fun byte small shown => direct.shown byte small ((same _).mpr shown),
    fun byte small missed => direct.missed byte small (mt (same _).mp missed)⟩

private theorem vmmInit_empty {mem : Bytes} {pmm : Pmm} {range : Range} (sized : pmm.Sized)
    (allocated : Vm.alloc ⟨mem, pmm, 0, []⟩ .root pageSize = .ok (range, vm)) (positive : 0 < range.length) :
    Direct range.base (fun _ => False) { vm with
      mem := memset vm.mem (mmapPhysToIo range.base) 0 pageSize, kernelPml4 := mmapPhysToIo range.base } := by
  obtain ⟨spaces, own⟩ := vmmInit_root sized allocated positive
  obtain ⟨taken, -, -⟩ := alloc_ok (show (Vm.mk mem pmm 0 []).pmm.Sized from sized) allocated
  have fresh := allocated_of_taken sized taken positive
  have small := fresh.small
  refine ⟨spaces, own, fun _ _ shown => shown.elim, fun byte _ _ => ?_⟩
  have empty (index : Nat) : child (tableEntry
    (memset vm.mem (mmapPhysToIo range.base) 0 pageSize) range.base index) = none := by
    unfold memset
    rw [phys_io _ (by omega), pageSize, tableEntry_zero _ fresh.aligned]
    simp [child_empty]
  rw [spaces.walk_eq rfl]
  simp only [follow, pathOf, RadixForest.follow, empty, Option.bind_none]

/-- What `vmm_init` puts into the direct map: four gigabytes less a page, and the
rounded extent of every entry. -/
theorem vmmInit_direct {mem : Bytes} {pmm : Pmm} {handover : Handover} (sized : pmm.Sized)
    (addressable : ∀ mmap ∈ handover.mmap, Addressable mmap) (ran : vmmInit mem pmm handover = .ok vm) :
    ∃ kernel, Direct kernel (fun page => page < 0xfffff ∨ ∃ mmap ∈ handover.mmap,
      page ∈ (initRange mmap).pages) vm := by
  obtain ⟨⟨range, middle⟩, allocated, ran⟩ := bind_ok ran
  obtain ⟨_, positive, ran⟩ := bind_ok ran
  obtain ⟨low, mapped, ran⟩ := bind_ok ran
  have start := (vmmInit_empty sized allocated (check_ok positive)).map (by decide) (by decide) mapped
  clear mapped
  have loop (entries rest : List MmapEntry) (member : ∀ mmap ∈ rest, Addressable mmap) (vm after : Vm)
      (direct : Direct range.base (fun page => page < 0xfffff ∨ ∃ mmap ∈ entries, page ∈ (initRange mmap).pages) vm)
      (ran : rest.foldlM vmmInitEntry vm = .ok after) :
      Direct range.base (fun page => page < 0xfffff ∨ ∃ mmap ∈ entries ++ rest,
        page ∈ (initRange mmap).pages) after := by
    induction rest generalizing entries vm with
    | nil =>
      obtain rfl := Except.ok.inj ran
      rwa [List.append_nil]
    | cons mmap rest ih =>
      rw [List.foldlM_cons] at ran
      obtain ⟨next, first, last⟩ := bind_ok ran
      have turn : Direct range.base
          (fun page => page < 0xfffff ∨ ∃ other ∈ entries ++ [mmap], page ∈ (initRange other).pages) next := by
        refine (direct.entry (member mmap List.mem_cons_self) first).congr fun page => ?_
        simp only [List.mem_append, List.mem_singleton, or_and_right, exists_or, exists_eq_left, or_assoc]
      have done := ih (entries ++ [mmap])
        (fun other among => member other (List.mem_cons_of_mem _ among)) next turn last
      rwa [List.append_assoc, List.singleton_append] at done
  refine ⟨range.base, loop [] handover.mmap addressable low vm (start.congr fun page => ?_) ran⟩
  simp [Range.mem_pages]

/-- A page in the direct map is mapped again without a new table. -/
theorem Direct.again {given : Vm} {range : Range} (isUser : Bool) (direct : Direct kernel covered vm)
    (spaces : Spaces (· = kernel) given) (same : given.mem = vm.mem)
    (aligned : range.base % 4096 = 0) (length : range.length = 4096) (small : range.base < 2 ^ 46)
    (shown : covered (range.base / 4096)) :
    ∃ mem, vmmMapRange given vm.kernelPml4 ⟨mmapPhysToIo range.base, range.length⟩ range isUser = .ok
      { given with mem } := by
  have walked := direct.shown range.base (by omega) shown
  rw [← same, spaces.walk_eq rfl] at walked
  have tables : (follow given.mem kernel (pathOf (range.base + mmapIoBase))).isSome := by
    cases reached : follow given.mem kernel (pathOf (range.base + mmapIoBase)) with
    | none =>
      rw [reached] at walked
      cases walked
    | some table => rfl
  have high : mmapPhysToIo range.base = range.base + mmapIoBase := by
    unfold mmapPhysToIo
    simp only [wrap, mmapIoBase]
    omega
  have virtual : alignDown (range.base + mmapIoBase) pageSize = range.base + mmapIoBase := by
    rw [alignDown_page]
    simp only [wrap, mmapIoBase]
    omega
  have physical : alignDown range.base pageSize = range.base := by
    rw [alignDown_page, wrap_of_lt (by omega)]
    omega
  obtain ⟨mem, ran⟩ := vmmMapPage_stores spaces.toForest rfl range.base isUser tables
  refine ⟨mem, ?_⟩
  rw [direct.own.pml4, high, ← ran, ← vmmMapRange_page given _ isUser virtual physical, ← length]

end Navy.Paging

namespace Navy.Pmm
open Outcome Paging

variable {handover : Handover}

private theorem placeBitmap_none (size : Nat) {entries : List MmapEntry}
    (none : ∀ mmap ∈ entries, ¬ (mmap.isFree ∧ size < mmap.range.length)) :
    placeBitmap size 0 entries = (0, entries) := by
  induction entries with
  | nil => rfl
  | cons mmap rest ih =>
    unfold placeBitmap
    rw [if_neg fun fits => none mmap List.mem_cons_self fits.2, ih fun other member =>
      none other (List.mem_cons_of_mem _ member)]

theorem pmmInit_roomy {pmm : Pmm} {edited : Handover} (ran : pmmInit handover = .ok (pmm, edited)) :
    ∃ mmap ∈ handover.mmap, Roomy handover mmap := by
  by_contra none
  unfold pmmInit at ran
  split at ran
  next last same =>
    have bytes : wrap (last.range.base + last.range.length) / (pageSize * 8) = bitmapBytes handover := by
      rw [bitmapBytes, same]
    dsimp only [ok_bind] at ran
    obtain ⟨⟨⟩, placed, -⟩ := bind_ok ran
    rw [bytes, placeBitmap_none _ fun mmap member fits => none ⟨mmap, member, fits⟩] at placed
    exact check_ok placed rfl
  next => cases ran

theorem Stivale2.edited {pmm : Pmm} {after : Handover} (promised : Stivale2 handover)
    (ran : pmmInit handover = .ok (pmm, after)) :
    ∃ before chosen rest, Placement handover before chosen rest ∧
      after.mmap = Pmm.edited handover before chosen rest := by
  obtain ⟨before, chosen, rest, placement⟩ := promised.placement (pmmInit_roomy ran)
  refine ⟨before, chosen, rest, placement, ?_⟩
  rw [placement.run] at ran
  obtain ⟨freed, -, ran⟩ := bind_ok ran
  obtain ⟨used, -, rest⟩ := bind_ok ran
  obtain ⟨-, rfl⟩ := Prod.mk.inj (Except.ok.inj rest)
  rfl

/-- The other entries hold no byte of the one that makes room for the bitmap. -/
theorem Placement.elsewhere {before rest : List MmapEntry} {chosen : MmapEntry}
    (placement : Placement handover before chosen rest) (promised : Stivale2 handover) {mmap : MmapEntry}
    (other : mmap ∈ before ∨ mmap ∈ rest) :
    ¬ mmap.range.Holds (bitmapRange handover).base := by
  have apart := promised.apart
  have long := placement.long
  have held : chosen.range.Holds chosen.range.base := ⟨Nat.le_refl _, by omega⟩
  rw [placement.split, List.pairwise_append, List.pairwise_cons] at apart
  rw [placement.range]
  intro holds
  rcases other with early | late
  · exact apart.2.2 mmap early chosen (by simp) (.inr placement.free) _ holds held
  · exact apart.2.1.1 mmap late (.inl placement.free) _ held holds

/-- The range of an aligned entry goes one page beyond the entry. -/
theorem initRange_aligned {mmap : MmapEntry} (base : mmap.range.base % 4096 = 0)
    (length : mmap.range.length % 4096 = 0) (reach : mmap.range.base + mmap.range.length ≤ 2 ^ 47) :
    initRange mmap = ⟨mmap.range.base, mmap.range.length + 4096⟩ := by
  unfold initRange
  rw [alignDown_page, alignUp_page _ (by omega), wrap_of_lt (by omega)]
  have up : (mmap.range.length + 4095) / 4096 * 4096 = mmap.range.length := by omega
  rw [up, show pageSize = 4096 from rfl, wrap_of_lt (by omega), Nat.div_mul_cancel (Nat.dvd_of_mod_eq_zero base)]

/-- Shrinking takes the bitmap's pages out of the extent of the entry, and no others. -/
theorem Placement.extent {before rest : List MmapEntry} {chosen : MmapEntry}
    (placement : Placement handover before chosen rest) (page : Nat) :
    page ∈ (initRange (Pmm.shrunk (bitmapBytes handover) chosen)).pages ↔
      page ∈ (initRange chosen).pages ∧ ¬ Touches (bitmapRange handover) page := by
  have long := placement.long
  obtain ⟨base, length, reach⟩ := placement.clean
  have shrunk : initRange (Pmm.shrunk (bitmapBytes handover) chosen) =
      ⟨chosen.range.base + (bitmapBytes handover + 4095) / 4096 * 4096,
        chosen.range.length - (bitmapBytes handover + 4095) / 4096 * 4096 + 4096⟩ := by
    rw [initRange_aligned, placement.shrunk]
    all_goals
      rw [placement.shrunk]
      dsimp only
      omega
  rw [shrunk, initRange_aligned base length reach, placement.touches, Range.mem_pages, Range.mem_pages]
  dsimp only
  omega

/-- The direct map has page `page`: below the last page of the first four
gigabytes, or in the rounded extent of an entry, unless the page holds the bitmap
and the entry is the one it was taken from. -/
def Covered (handover : Handover) (page : Nat) : Prop :=
  page < 0xfffff ∨ ∃ mmap ∈ handover.mmap, page ∈ (initRange mmap).pages ∧
    ¬ (Touches (bitmapRange handover) page ∧ mmap.range.Holds (bitmapRange handover).base)

theorem Placement.covered {before rest : List MmapEntry} {chosen : MmapEntry}
    (placement : Placement handover before chosen rest) (promised : Stivale2 handover) (page : Nat) :
    (page < 0xfffff ∨ ∃ mmap ∈ edited handover before chosen rest, page ∈ (initRange mmap).pages) ↔
      Covered handover page := by
  have long := placement.long
  have held : chosen.range.Holds (bitmapRange handover).base := by
    rw [placement.range]
    exact ⟨Nat.le_refl _, by dsimp only; omega⟩
  unfold Covered
  rw [placement.split]
  constructor
  · intro either
    refine either.imp_right fun shown => ?_
    obtain ⟨mmap, member, inside⟩ := shown
    rcases List.mem_append.mp member with early | late
    · exact ⟨mmap, by simp [early], inside, fun both => placement.elsewhere promised (.inl early) both.2⟩
    · rcases List.mem_cons.mp late with rfl | late
      · obtain ⟨inside, untouched⟩ := (placement.extent page).mp inside
        exact ⟨chosen, by simp, inside, fun both => untouched both.1⟩
      · exact ⟨mmap, by simp [late], inside, fun both => placement.elsewhere promised (.inr late) both.2⟩
  · intro either
    refine either.imp_right fun shown => ?_
    obtain ⟨mmap, member, inside, other⟩ := shown
    rcases List.mem_append.mp member with early | late
    · exact ⟨mmap, by simp [early], inside⟩
    · rcases List.mem_cons.mp late with rfl | late
      · exact ⟨Pmm.shrunk (bitmapBytes handover) mmap, by simp, (placement.extent page).mpr ⟨inside, fun touched =>
          other ⟨touched, held⟩⟩⟩
      · exact ⟨mmap, by simp [late], inside⟩

/-- The bytes of an entry are in its rounded extent. -/
theorem initRange_holds {mmap : MmapEntry} (addressable : Addressable mmap) {byte : Nat}
    (holds : mmap.range.Holds byte) : byte / 4096 ∈ (initRange mmap).pages := by
  obtain ⟨low, high⟩ := holds
  simp only [Addressable] at addressable
  rw [Range.mem_pages]
  simp only [initRange]
  rw [alignDown_page, alignUp_page _ (by omega)]
  simp only [wrap, pageSize]
  omega

/-- Every byte below four gigabytes, and every byte of the map as the boot loader
gave it, is in the direct map, for the kernel only. -/
def Complete (handover : Handover) (vm : Vm) : Prop :=
  ∀ byte, (byte < 2 ^ 32 ∨ ∃ mmap ∈ handover.mmap, mmap.range.Holds byte) →
    walk vm.mem (vmmSwitchSpace vm.kernelPml4) (byte + mmapIoBase) = some ⟨byte / pageSize * pageSize, true, false⟩

theorem Stivale2.shrunk_addressable {pmm : Pmm} {after : Handover} (promised : Stivale2 handover)
    (addressable : ∀ mmap ∈ handover.mmap, Addressable mmap) (ran : pmmInit handover = .ok (pmm, after)) :
    ∀ mmap ∈ after.mmap, Addressable mmap := by
  obtain ⟨before, chosen, rest, placement, same⟩ := promised.edited ran
  have taken := placement.taken
  intro mmap member
  rw [same] at member
  rcases List.mem_append.mp member with early | late
  · exact addressable mmap (by simp [placement.split, early])
  · rcases List.mem_cons.mp late with rfl | late
    · have reach := addressable chosen (by simp [placement.split])
      unfold Addressable at reach ⊢
      rw [placement.shrunk]
      dsimp only
      omega
    · exact addressable mmap (by simp [placement.split, late])

/-- The pages the direct map can miss are the last one below four gigabytes and
those of the bitmap. -/
theorem boot_map_complete (promised : Stivale2 handover)
    (addressable : ∀ mmap ∈ handover.mmap, Addressable mmap) {pmm : Pmm} {after : Handover} {mem : Bytes}
    {vm : Vm} (placed : pmmInit handover = .ok (pmm, after)) (booted : vmmInit mem pmm after = .ok vm) :
    Complete handover vm ↔ ∀ page, (page = 0xfffff ∨ Touches (bitmapRange handover) page) → Covered handover page := by
  obtain ⟨before, chosen, rest, placement, same⟩ := promised.edited placed
  obtain ⟨kernel, direct⟩ :=
    vmmInit_direct (Reached.init placed).sized (promised.shrunk_addressable addressable placed) booted
  have root : vmmSwitchSpace vm.kernelPml4 = kernel := by
    rw [direct.own.pml4, vmmSwitchSpace, phys_io _ (direct.spaces.aligned kernel rfl).2]
  rw [same] at direct
  have direct := direct.congr (placement.covered promised)
  unfold Complete
  rw [root]
  constructor
  · intro complete page either
    by_contra missing
    have byte : ∃ byte, byte / 4096 = page ∧ byte < 2 ^ 46 ∧
        (byte < 2 ^ 32 ∨ ∃ mmap ∈ handover.mmap, mmap.range.Holds byte) := by
      rcases either with rfl | touched
      · exact ⟨0xfffff000, by decide, by decide, .inl (by decide)⟩
      · obtain ⟨byte, inside, rfl⟩ := touched
        have reach := addressable chosen (by simp [placement.split])
        have long := placement.long
        rw [placement.range] at inside
        obtain ⟨low, high⟩ := inside
        unfold Addressable at reach
        dsimp only at low high
        exact ⟨byte, rfl, by omega, .inr ⟨chosen, by simp [placement.split], low, by omega⟩⟩
    obtain ⟨byte, rfl, small, asked⟩ := byte
    have none := direct.missed byte (by omega) missing
    rw [complete byte asked] at none
    cases none
  · intro covered byte asked
    have small : byte < 2 ^ 46 := by
      rcases asked with low | ⟨mmap, member, holds⟩
      · omega
      · have reach := addressable mmap member
        have high := holds.2
        unfold Addressable at reach
        omega
    refine direct.shown byte (by omega) ?_
    rcases asked with low | ⟨mmap, member, holds⟩
    · by_cases last : byte / 4096 = 0xfffff
      · exact covered _ (.inl last)
      · exact .inl (by omega)
    · by_cases bitmap : Touches (bitmapRange handover) (byte / 4096) ∧ mmap.range.Holds (bitmapRange handover).base
      · exact covered _ (.inr bitmap.1)
      · exact .inr ⟨mmap, member, initRange_holds (addressable mmap member) holds, bitmap⟩

theorem gigabyte_promised : Stivale2 gigabyte ∧ ∀ mmap ∈ gigabyte.mmap, Addressable mmap := by
  refine ⟨⟨?_, ?_, ?_, ?_⟩, ?_⟩ <;> simp [gigabyte, pageSize, Addressable]

theorem boot_map_complete_gigabyte : ∃ pmm after vm, pmmInit gigabyte = .ok (pmm, after) ∧
    vmmInit (fun _ => 0) pmm after = .ok vm ∧
    (Complete gigabyte vm ↔ ∀ page, (page = 0xfffff ∨ Touches (bitmapRange gigabyte) page) →
      Covered gigabyte page) := by
  obtain ⟨pmm, vm, placed, -, booted, -⟩ := gigabyte_vm fun _ => 0
  exact ⟨pmm, _, vm, placed, booted, boot_map_complete gigabyte_promised.1 gigabyte_promised.2 placed booted⟩

/-- The last page below four gigabytes is not in the direct map of a machine with
one gigabyte of memory. -/
theorem boot_map_gap : ∃ pmm after vm, pmmInit gigabyte = .ok (pmm, after) ∧ vmmInit (fun _ => 0) pmm after = .ok vm ∧
    walk vm.mem (vmmSwitchSpace vm.kernelPml4) (0xfffff000 + mmapIoBase) = none ∧ ¬ Complete gigabyte vm := by
  obtain ⟨pmm, vm, placed, sized, booted, -⟩ := gigabyte_vm fun _ => 0
  have addressable : ∀ mmap ∈ [gigabyteEntry], Addressable mmap := by simp [Addressable, gigabyteEntry]
  obtain ⟨kernel, direct⟩ := vmmInit_direct sized addressable booted
  have root : vmmSwitchSpace vm.kernelPml4 = kernel := by
    rw [direct.own.pml4, vmmSwitchSpace, phys_io _ (direct.spaces.aligned kernel rfl).2]
  have none : walk vm.mem (vmmSwitchSpace vm.kernelPml4) (0xfffff000 + mmapIoBase) = none := by
    rw [root]
    refine direct.missed 0xfffff000 (by decide) fun shown => ?_
    rcases shown with low | ⟨mmap, member, inside⟩
    · omega
    · obtain rfl := List.mem_singleton.mp member
      have extent : initRange gigabyteEntry = ⟨0x108000, 0x3fef9000⟩ := initRange_aligned rfl rfl (by decide)
      rw [extent] at inside
      have bounds := Range.mem_pages.mp inside
      dsimp only at bounds
      omega
  refine ⟨pmm, _, vm, placed, booted, none, fun complete => ?_⟩
  have shown := complete 0xfffff000 (.inl (by decide))
  rw [none] at shown
  cases shown

end Navy.Pmm
