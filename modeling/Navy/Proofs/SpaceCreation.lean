import Navy.Proofs.AddressSpace

/-! Where address spaces come from: the kernel's own, made at boot, and the
copies of its kernel half made for processes. -/

namespace Navy.Paging
open RadixForest

variable {roots : Nat → Prop}

/-- The kernel's root and the slot below its kernel half that copies take along. -/
structure KernelSpace (kernel : Nat) (vm : Vm) : Prop where
  pml4 : vm.kernelPml4 = mmapPhysToIo kernel
  hole : tableEntry vm.mem kernel 255 = emptyEntry

theorem KernelSpace.unique {kernel other : Nat} {vm : Vm} (first : KernelSpace kernel vm) (last : KernelSpace other vm)
    (small : kernel < 2 ^ 64) (small' : other < 2 ^ 64) : kernel = other := by
  rw [← phys_io kernel small, ← first.pml4, last.pml4, phys_io other small']

/-- Memory the direct map has an address for. -/
def Addressable (mmap : MmapEntry) : Prop := mmap.range.base + mmap.range.length ≤ 2 ^ 46

/-- Mapping into the only space leaves a slot alone that no address falls into. -/
theorem vmmMapRange_kernel {kernel : Nat} {vm after : Vm} {virt phys : Range} {isUser : Bool}
    (spaces : Spaces (· = kernel) vm) (own : KernelSpace kernel vm)
    (ran : vmmMapRange vm vm.kernelPml4 virt phys isUser = .ok after) (place : Nat → Nat)
    (address : ∀ index, index < virt.length / 4096 →
      wrap (index * pageSize + alignDown virt.base pageSize) = place index)
    (canonical : ∀ index, index < virt.length / 4096 → Canonical (place index) ∧ pml4GetIndex (place index) ≠ 255) :
    Spaces (· = kernel) after ∧ KernelSpace kernel after ∧ Grows (· = kernel) vm after := by
  rw [own.pml4] at ran
  have touched := vmmMapRange_touched spaces rfl ran address (fun index inside => (canonical index inside).1)
    (fun _ _ => .inr (.inr fun _ same => same))
  have slot := touched.slots kernel 255 rfl fun _ virt isCanonical => by
    rintro ⟨index, inside, same⟩
    obtain ⟨canonical', apart⟩ := canonical index inside
    have path := ((SameSlot.page isCanonical canonical').mpr same).1
    have top : pml4GetIndex virt = pml4GetIndex (place index) := (List.cons.inj path).1
    rw [top]
    exact apart.symm
  exact ⟨touched.spaces, ⟨touched.grows.kernel.trans own.pml4, slot.trans own.hole⟩, touched.grows⟩

private theorem offset_place (base offset : Nat) (aligned : base % 4096 = 0) (offsetAligned : offset % 4096 = 0)
    (index : Nat) : wrap (index * pageSize + alignDown (wrap (base + offset)) pageSize) =
      wrap (base + index * 4096 + offset) := by
  rw [alignDown_page]
  simp only [wrap, pageSize]
  omega

theorem direct_address {start : Nat} (aligned : start % 4096 = 0) (index : Nat) :
    wrap (index * pageSize + alignDown (mmapPhysToIo start) pageSize) = wrap (start + index * 4096 + mmapIoBase) := by
  unfold mmapPhysToIo
  exact offset_place start mmapIoBase aligned (by decide) index

private theorem window_address {start : Nat} (aligned : start % 4096 = 0) (index : Nat) :
    wrap (index * pageSize + alignDown (mmapPhysToKernel start) pageSize) =
      wrap (start + index * 4096 + mmapKernelBase) := by
  unfold mmapPhysToKernel
  exact offset_place start mmapKernelBase aligned (by decide) index

theorem direct_place {address : Nat} (small : address < 2 ^ 46 + 8192) :
    Canonical (wrap (address + mmapIoBase)) ∧ pml4GetIndex (wrap (address + mmapIoBase)) ≠ 255 := by
  have high : wrap (address + mmapIoBase) = address + mmapIoBase := by
    simp only [wrap, mmapIoBase]
    omega
  rw [high, pml4GetIndex, pmlxGetIndex_eq]
  simp only [Canonical, wrap, mmapIoBase]
  omega

/-- Memory above the window of the kernel image wraps around into the user
half, but never as far up as its last slot. -/
private theorem kernel_place {address : Nat} (small : address < 2 ^ 46 + 8192) :
    Canonical (wrap (address + mmapKernelBase)) ∧ pml4GetIndex (wrap (address + mmapKernelBase)) ≠ 255 := by
  rw [pml4GetIndex, pmlxGetIndex_eq]
  simp only [Canonical, wrap, mmapKernelBase]
  omega

/-- The extent of memory one round of `vmm_init` maps for an entry. -/
def initRange (mmap : MmapEntry) : Range :=
  ⟨alignDown mmap.range.base pageSize, wrap (alignUp mmap.range.length pageSize + pageSize)⟩

theorem initRange_small {mmap : MmapEntry} (addressable : Addressable mmap) :
    (initRange mmap).base % 4096 = 0 ∧ (initRange mmap).base + (initRange mmap).length < 2 ^ 46 + 8192 := by
  simp only [Addressable] at addressable
  simp only [initRange]
  rw [alignDown_page, alignUp_page _ (by omega)]
  simp only [wrap, pageSize]
  omega

/-- The window of the kernel image and the direct map share no page. -/
private theorem window_apart {start count : Nat} (base : start % 4096 = 0)
    (length : start + count < 2 ^ 46 + 8192) {kernel : Nat} {vm after : Vm} {isUser : Bool}
    (spaces : Spaces (· = kernel) vm) (own : KernelSpace kernel vm)
    (ran : vmmMapRange vm vm.kernelPml4 ⟨mmapPhysToKernel start, count⟩ ⟨start, count⟩ isUser = .ok after)
    {byte : Nat} (small : byte < 2 ^ 46 + 8192) : walk after.mem kernel (byte + mmapIoBase) = walk vm.mem kernel
    (byte + mmapIoBase) := by
  rw [own.pml4] at ran
  have touched := vmmMapRange_touched spaces rfl ran (fun index _ => window_address base index)
    (fun index inside => (kernel_place (by simp only at inside; omega)).1) (fun _ _ => .inr (.inr fun _ same => same))
  have high : wrap (byte + mmapIoBase) = byte + mmapIoBase := wrap_of_lt (by simp only [mmapIoBase]; omega)
  refine touched.misses kernel _ rfl (high ▸ (direct_place small).1) ?_
  rintro ⟨⟨index, inside, same⟩, -⟩
  simp only [wrap, mmapIoBase, mmapKernelBase] at inside same
  omega

/-- The last mapping of a round is that of the whole entry into the direct map. -/
theorem vmmInitEntry_last {kernel : Nat} {vm after : Vm} {mmap : MmapEntry} (spaces : Spaces (· = kernel) vm)
    (own : KernelSpace kernel vm) (addressable : Addressable mmap) (ran : vmmInitEntry vm mmap = .ok after) :
    ∃ middle, Spaces (· = kernel) middle ∧ KernelSpace kernel middle ∧ Grows (· = kernel) vm middle ∧
      (∀ byte, byte < 2 ^ 46 + 8192 → walk middle.mem kernel (byte + mmapIoBase) = walk vm.mem kernel
        (byte + mmapIoBase)) ∧
      vmmMapRange middle middle.kernelPml4 ⟨mmapPhysToIo (initRange mmap).base, (initRange mmap).length⟩
        (initRange mmap) false =
        .ok after := by
  obtain ⟨base, length⟩ := initRange_small addressable
  simp only [vmmInitEntry] at ran
  simp only [initRange] at base length ⊢
  generalize alignDown mmap.range.base pageSize = start at base length ran ⊢
  generalize wrap (alignUp mmap.range.length pageSize + pageSize) = count at length ran ⊢
  split at ran
  next =>
    obtain ⟨middle, first, last⟩ := Outcome.bind_ok ran
    have apart := fun byte small => @window_apart start count base length kernel vm middle false spaces own first byte small
    obtain ⟨spaces, own, grows⟩ :=
      vmmMapRange_kernel spaces own first (fun index => wrap (start + index * 4096 + mmapKernelBase))
      (fun index _ => window_address base index)
      (fun index inside => kernel_place (by simp only at inside; omega))
    exact ⟨middle, spaces, own, grows, apart, last⟩
  next =>
    obtain ⟨middle, first, last⟩ := Outcome.bind_ok ran
    obtain rfl := Except.ok.inj first
    exact ⟨vm, spaces, own, .refl _ _, fun _ _ => rfl, last⟩

theorem vmmInitEntry_ok {kernel : Nat} {vm after : Vm} {mmap : MmapEntry} (spaces : Spaces (· = kernel) vm)
    (own : KernelSpace kernel vm) (addressable : Addressable mmap) (ran : vmmInitEntry vm mmap = .ok after) :
    Spaces (· = kernel) after ∧ KernelSpace kernel after ∧ Grows (· = kernel) vm after := by
  obtain ⟨base, length⟩ := initRange_small addressable
  obtain ⟨middle, spaces, own, early, -, last⟩ := vmmInitEntry_last spaces own addressable ran
  obtain ⟨spaces, own, late⟩ :=
    vmmMapRange_kernel spaces own last (fun index => wrap ((initRange mmap).base + index * 4096 + mmapIoBase))
    (fun index _ => direct_address base index)
    (fun index inside => direct_place (by simp only at inside; omega))
  exact ⟨spaces, own, early.trans late⟩

/-- The kernel's root as boot leaves it before anything is mapped. -/
theorem vmmInit_root {mem : Bytes} {pmm : Pmm} {range : Range} {vm : Vm} (sized : pmm.Sized)
    (allocated : Vm.alloc ⟨mem, pmm, 0, []⟩ .root pageSize = .ok (range, vm)) (positive : 0 < range.length) :
    Spaces (· = range.base) { vm with
      mem := memset vm.mem (mmapPhysToIo range.base) 0 pageSize, kernelPml4 := mmapPhysToIo range.base } ∧
    KernelSpace range.base { vm with
      mem := memset vm.mem (mmapPhysToIo range.base) 0 pageSize, kernelPml4 := mmapPhysToIo range.base } := by
  obtain ⟨taken, _, _⟩ := alloc_ok (show (Vm.mk mem pmm 0 []).pmm.Sized from sized) allocated
  have fresh := allocated_of_taken sized taken positive
  have small := fresh.small
  have empty (index : Nat) : tableEntry (memset vm.mem (mmapPhysToIo range.base) 0 pageSize) range.base index =
    emptyEntry := by
    unfold memset
    rw [phys_io _ (by omega), pageSize, tableEntry_zero _ fresh.aligned]
    simp
  have shows : AddressSpace.Shows range.base { vm with
      mem := memset vm.mem (mmapPhysToIo range.base) 0 pageSize, kernelPml4 :=
        mmapPhysToIo range.base } fun _ => none := by
    refine AddressSpace.Shows.empty fresh.sized fresh.aligned (by omega) (fun index => ?_) fresh.gone
    rw [empty]
  refine ⟨.alone shows.forest, rfl, ?_⟩
  rw [empty]

theorem vmmInit_ok {mem : Bytes} {pmm : Pmm} {handover : Handover} {vm : Vm} (sized : pmm.Sized)
    (addressable : ∀ mmap ∈ handover.mmap, Addressable mmap) (ran : vmmInit mem pmm handover = .ok vm) :
    ∃ kernel, Spaces (· = kernel) vm ∧ KernelSpace kernel vm := by
  obtain ⟨⟨range, middle⟩, allocated, ran⟩ := Outcome.bind_ok ran
  obtain ⟨_, positive, ran⟩ := Outcome.bind_ok ran
  obtain ⟨lowMemory, mapped, ran⟩ := Outcome.bind_ok ran
  obtain ⟨spaces, own⟩ := vmmInit_root sized allocated (check_ok positive)
  have low := vmmMapRange_kernel spaces own mapped (fun index => wrap (0 + index * 4096 + mmapIoBase))
    (fun index _ => direct_address (by decide) index)
    (fun index inside => direct_place (by simp only at inside; omega))
  have step (vm : Vm) (mmap : MmapEntry) (after : Vm) (member : mmap ∈ handover.mmap)
      (kept : Spaces (· = range.base) vm ∧ KernelSpace range.base vm) (ran : vmmInitEntry vm mmap = .ok after) :
      Spaces (· = range.base) after ∧ KernelSpace range.base after := by
    obtain ⟨spaces, own, -⟩ := vmmInitEntry_ok kept.1 kept.2 (addressable mmap member) ran
    exact ⟨spaces, own⟩
  exact ⟨range.base, Outcome.foldlM_keeps step ⟨low.1, low.2.1⟩ ran⟩

/-- The loop of `vmm_space_create`, after `count` rounds. -/
private def copied (mem : Bytes) (target source count : Nat) : Bytes :=
  (List.range count).foldl (fun mem i => setPmlEntry mem target (255 + i) (pmlEntry mem source (255 + i))) mem

private theorem copied_entries {mem : Bytes} {kernel fresh : Nat} (kernelAligned : kernel % 4096 = 0)
    (kernelSmall : kernel < 2 ^ 64) (aligned : fresh % 4096 = 0) (small : fresh < 2 ^ 64) (apart : kernel ≠ fresh)
    {count : Nat} (inside : count ≤ 257) (table index : Nat) :
    tableEntry (copied mem (mmapPhysToIo fresh) (mmapPhysToIo kernel) count) table index =
      if table = fresh ∧ 255 ≤ index ∧ index < 255 + count then tableEntry mem kernel index
      else tableEntry mem table index := by
  induction count generalizing table index with
  | zero =>
    rw [if_neg (by omega)]
    rfl
  | succ count ih =>
    have before := ih (by omega)
    have source : pmlEntry (copied mem (mmapPhysToIo fresh) (mmapPhysToIo kernel) count) (mmapPhysToIo kernel)
      (255 + count) =
        tableEntry mem kernel (255 + count) := by
      rw [pmlEntry_eq kernelAligned kernelSmall (by omega), before, if_neg (fun both => apart both.1)]
    have round : copied mem (mmapPhysToIo fresh) (mmapPhysToIo kernel) (count + 1) =
        setPmlEntry (copied mem (mmapPhysToIo fresh) (mmapPhysToIo kernel) count) (mmapPhysToIo fresh) (255 + count)
          (tableEntry mem kernel (255 + count)) := by
      rw [← source]
      simp only [copied, List.range_succ, List.foldl_append, List.foldl_cons, List.foldl_nil]
    rw [round, setPmlEntry_eq _ aligned small (by omega) (tableEntry_fits _ _ _), put, before]
    by_cases here : table = fresh ∧ index = 255 + count
    · rw [if_pos here, if_pos (by omega), here.2]
    · by_cases earlier : table = fresh ∧ 255 ≤ index ∧ index < 255 + count
      · rw [if_neg here, if_pos earlier, if_pos (by omega)]
      · rw [if_neg here, if_neg earlier, if_neg (by omega)]

private theorem copied_apart {mem : Bytes} {source fresh : Nat} (aligned : fresh % 4096 = 0) (small : fresh < 2 ^ 64)
    {count place : Nat} (inside : count ≤ 257) (apart : place / 4096 ≠ fresh / 4096) :
    copied mem (mmapPhysToIo fresh) source count place = mem place := by
  induction count with
  | zero => rfl
  | succ count ih =>
    have round : copied mem (mmapPhysToIo fresh) source (count + 1) =
        setPmlEntry (copied mem (mmapPhysToIo fresh) source count) (mmapPhysToIo fresh) (255 + count)
          (pmlEntry (copied mem (mmapPhysToIo fresh) source count) source (255 + count)) := by
      simp only [copied, List.range_succ, List.foldl_append, List.foldl_cons, List.foldl_nil]
    rw [round, setPmlEntry_apart aligned small (by omega) apart]
    exact ih (by omega)

/-- A space made for a process: nothing of its own yet, the kernel half in common. -/
structure Created (roots : Nat → Prop) (kernel : Nat) (vm : Vm) (fresh : Nat) (after : Vm) : Prop where
  spaces : Spaces (fun root => roots root ∨ root = fresh) after
  kernel : KernelSpace kernel after
  grows : Grows roots vm after
  unreached : ¬ IsTable roots vm.mem fresh
  was : Available vm.pmm (fresh / 4096)
  tables : ∀ table, IsTable (fun root => roots root ∨ root = fresh) after.mem table →
    IsTable roots vm.mem table ∨ table = fresh
  same : ∀ table, table ≠ fresh → ∀ index, tableEntry after.mem table index = tableEntry vm.mem table index
  walks : ∀ other virt, roots other → walk after.mem other virt = walk vm.mem other virt
  empty : ∀ virt, UserHalf virt → walk after.mem fresh virt = none

theorem Claimed.root_apart {vm after : Vm} {frame root : Nat} (claimed : Claimed roots vm frame after)
    (isRoot : roots root) : root ≠ frame := by
  rintro rfl
  exact claimed.unreached ⟨root, [], isRoot, by simp, rfl⟩

section Copy

variable {vm zeroed : Vm} {kernel fresh : Nat} {mem : Bytes}
  (entries : ∀ table index, tableEntry mem table index =
    if table = fresh ∧ 255 ≤ index ∧ index < 255 + 257 then tableEntry zeroed.mem kernel index
    else tableEntry zeroed.mem table index)
include entries

private theorem copied_other {table : Nat} (apart : table ≠ fresh) (index : Nat) :
    tableEntry mem table index = tableEntry zeroed.mem table index := by
  rw [entries, if_neg fun both => apart both.1]

variable (claimed : Claimed roots vm fresh zeroed)
include claimed

private theorem copied_kept (table : Nat) (isTable : IsTable roots zeroed.mem table) (index : Nat) :
    tableEntry mem table index = tableEntry zeroed.mem table index :=
  copied_other entries (fun clash => claimed.unreached (clash ▸ (claimed.tables table).mp isTable)) index

private theorem copied_tables (table : Nat) : IsTable roots mem table ↔ IsTable roots vm.mem table :=
  (isTable_kept (copied_kept entries claimed) table).trans (claimed.tables table)

private theorem copied_old : Forest roots { zeroed with mem } :=
  claimed.forest.kept (copied_kept entries claimed) claimed.forest.sized fun _ held => held

private theorem copied_same {table : Nat} (apart : table ≠ fresh) (index : Nat) :
    tableEntry mem table index = tableEntry vm.mem table index :=
  (copied_other entries apart index).trans (claimed.same table apart index)

variable (isKernel : roots kernel) (own : KernelSpace kernel vm)
include isKernel own

private theorem copied_copy : Copied child (256 ≤ ·) (tableEntry mem) kernel fresh := by
  have apart := claimed.root_apart isKernel
  constructor
  · intro index isKernelHalf
    rw [copied_other entries apart, entries]
    split
    · rfl
    next outside =>
      have beyond : 512 ≤ index := by
        by_contra inside
        exact outside ⟨rfl, by omega, by omega⟩
      rw [claimed.empty, tableEntry, if_neg (by omega)]
  · intro index isUserHalf
    rw [entries]
    split
    next inside =>
      obtain rfl : index = 255 := by omega
      rw [claimed.same kernel apart, own.hole, child_empty]
    · rw [claimed.empty, child_empty]

/-- What the new root reaches beyond itself, the kernel reaches by the same path. -/
private theorem copied_follow {path : List Nat} {table : Nat} (hit : follow mem fresh path = some table) :
    path = [] ∧ table = fresh ∨ follow mem kernel path = some table :=
  ((copied_copy entries claimed isKernel own).follow hit).imp_right And.right

private theorem copied_forest : Forest (fun root => roots root ∨ root = fresh) { zeroed with mem } := by
  have old := copied_old entries claimed
  have viaKernel {path : List Nat} {table : Nat} := @copied_follow _ _ _ _ _ _ entries claimed isKernel own path table
  have small := claimed.small
  have unreached (other : Nat) (way : List Nat) (isOther : roots other) (short : way.length ≤ 3) :
      follow mem other way ≠ some fresh := fun hit =>
    claimed.unreached ((copied_tables entries claimed fresh).mp ⟨other, way, isOther, short, hit⟩)
  refine ⟨claimed.forest.sized, old.separated.add_root isKernel
    (copied_copy entries claimed isKernel own) unreached, ?_, ?_, ?_⟩
  · rintro root (isRoot | rfl)
    · exact old.aligned root isRoot
    · exact ⟨claimed.aligned, by omega⟩
  · rintro root path table index (isRoot | rfl) short hit present
    · exact old.open' root path table index isRoot short hit present
    · rcases viaKernel hit with ⟨_, rfl⟩ | hit
      · rw [entries] at present ⊢
        split at present
        next inside =>
          rw [if_pos inside]
          rw [← copied_other entries (claimed.root_apart isKernel)] at present ⊢
          exact old.open' kernel [] kernel index isKernel (by simp) rfl present
        · rw [claimed.empty] at present
          cases present
      · exact old.open' kernel path table index isKernel short hit present
  · rintro table ⟨root, path, isRoot | rfl, short, hit⟩
    · exact old.reserved table ⟨root, path, isRoot, short, hit⟩
    · rcases viaKernel hit with ⟨_, rfl⟩ | hit
      · exact claimed.gone
      · exact old.reserved table ⟨kernel, path, isKernel, short, hit⟩

private theorem copied_shared (spaces : Spaces roots vm) (root index : Nat) (isRoot : roots root ∨ root = fresh)
    (isKernelHalf : 256 ≤ index) :
    child (tableEntry mem root index) = child (tableEntry mem kernel index) := by
  rcases isRoot with isRoot | rfl
  · rw [copied_same entries claimed (claimed.root_apart isRoot), copied_same entries claimed
      (claimed.root_apart isKernel)]
    exact spaces.shared root kernel index isRoot isKernel isKernelHalf
  · exact (copied_copy entries claimed isKernel own).shared index isKernelHalf

private theorem Claimed.created (spaces : Spaces roots vm)
    (bytes : ∀ place, place / 4096 ≠ fresh / 4096 → mem place = zeroed.mem place) :
    Created roots kernel vm fresh { zeroed with mem } := by
  have forest := copied_forest entries claimed isKernel own
  have shared := copied_shared entries claimed isKernel own spaces
  have apart {table : Nat} (isTable : IsTable roots vm.mem table) : table ≠ fresh :=
    fun clash => claimed.unreached (clash ▸ isTable)
  have tables := copied_tables entries claimed
  have same {table : Nat} (apart : table ≠ fresh) := copied_same entries claimed apart
  refine ⟨⟨forest, ?_⟩, ?_, ?_, claimed.unreached, claimed.was, ?_, fun _ => same, ?_, ?_⟩
  · intro root other index isRoot isOther isKernelHalf
    rw [shared root index isRoot isKernelHalf, shared other index isOther isKernelHalf]
  · exact ⟨claimed.grows.kernel.trans own.pml4, by rw [same (claimed.root_apart isKernel)]; exact own.hole⟩
  · refine ⟨claimed.grows.kernel, ?_, ?_, claimed.grows.available, ?_⟩
    · intro root path table isRoot short hit
      rw [follow_kept (copied_kept entries claimed) isRoot (by omega)]
      exact claimed.grows.paths root path table isRoot short hit
    · exact fun table isTable => .inl ((tables table).mp isTable)
    · intro place held away
      exact (bytes place fun clash => held (clash ▸ claimed.was)).trans (claimed.grows.bytes place held away)
  · rintro table ⟨root, path, isRoot | rfl, short, hit⟩
    · exact .inl ((tables table).mp ⟨root, path, isRoot, short, hit⟩)
    · rcases copied_follow entries claimed isKernel own hit with ⟨_, same⟩ | hit
      · exact .inr same
      · exact .inl ((tables table).mp ⟨kernel, path, isKernel, short, hit⟩)
  · intro other virt isOther
    exact spaces.walk_kept (copied_old entries claimed) (fun table isTable => same (apart isTable)) isOther virt
  · intro virt half
    have low : ¬ 256 ≤ pml4GetIndex virt := mt (userHalf_index (.inl half)).mp (not_not.mpr half)
    rw [forest.walk_eq (.inr rfl)]
    simp only [follow, pathOf, RadixForest.follow, (copied_copy entries claimed isKernel own).own _ low,
      Option.bind_none]

end Copy

/-- The new root and the copy of the kernel's upper slots in it. -/
theorem vmmSpaceCreate_copied {vm after : Vm} {kernel pml : Nat} (spaces : Spaces roots vm) (isKernel : roots kernel)
    (pml4 : vm.kernelPml4 = mmapPhysToIo kernel) (ran : vmmSpaceCreate vm = .ok (pml, after)) :
    ∃ fresh zeroed mem, pml = mmapPhysToIo fresh ∧ after = { zeroed with mem } ∧ Claimed roots vm fresh zeroed ∧
      (∀ table index, tableEntry mem table index =
        if table = fresh ∧ 255 ≤ index ∧ index < 255 + 257 then tableEntry zeroed.mem kernel index
        else tableEntry zeroed.mem table index) ∧
      ∀ place, place / 4096 ≠ fresh / 4096 → mem place = zeroed.mem place := by
  obtain ⟨⟨frame, middle⟩, allocated, ran⟩ := Outcome.bind_ok ran
  obtain ⟨_, positive, rest⟩ := Outcome.bind_ok ran
  obtain ⟨rfl, rfl⟩ := Prod.mk.inj (Except.ok.inj rest)
  have result := alloc_ok spaces.sized allocated
  have taken := allocated_of_taken spaces.sized result.1 (check_ok positive)
  have claimed : Claimed roots vm frame.base { middle with mem := memset middle.mem (mmapPhysToIo frame.base) 0 pageSize } := by
    rw [result.2.2]
    exact spaces.claim taken
  have apart := claimed.root_apart isKernel
  have small := claimed.small
  have source : middle.kernelPml4 = mmapPhysToIo kernel := claimed.grows.kernel.trans pml4
  have entries := @copied_entries (memset middle.mem (mmapPhysToIo frame.base) 0 pageSize) kernel frame.base
    (spaces.aligned kernel isKernel).1 (spaces.aligned kernel isKernel).2 claimed.aligned (by omega) apart 257 (by omega)
  have bytes (place : Nat) := @copied_apart (memset middle.mem (mmapPhysToIo frame.base) 0 pageSize) middle.kernelPml4
    frame.base claimed.aligned (by omega) 257 place (by omega)
  rw [← source] at entries
  exact ⟨frame.base, { middle with mem := memset middle.mem (mmapPhysToIo frame.base) 0 pageSize },
    copied (memset middle.mem (mmapPhysToIo frame.base) 0 pageSize) (mmapPhysToIo frame.base) middle.kernelPml4 257,
    rfl, rfl, claimed, entries, bytes⟩

theorem vmmSpaceCreate_ok {vm after : Vm} {kernel pml : Nat} (spaces : Spaces roots vm) (isKernel : roots kernel)
    (own : KernelSpace kernel vm) (ran : vmmSpaceCreate vm = .ok (pml, after)) :
    ∃ fresh, pml = mmapPhysToIo fresh ∧ Created roots kernel vm fresh after := by
  obtain ⟨fresh, zeroed, mem, rfl, rfl, claimed, entries, bytes⟩ := vmmSpaceCreate_copied spaces isKernel own.pml4 ran
  exact ⟨fresh, rfl, claimed.created entries isKernel own spaces bytes⟩

end Navy.Paging
