import Navy.Elf
import Navy.Proofs.FrameUse

/-! What one segment of a module does to the machine when its accesses stay
where they belong. -/

namespace Navy
open Paging Outcome

variable {roots : Nat → Prop}

theorem io_offset (physical offset : Nat) : mmapIoToPhys (wrap (mmapPhysToIo physical + offset)) =
    wrap (physical + offset) := by
  unfold mmapIoToPhys mmapPhysToIo
  simp only [wrapSub, wrap, mmapIoBase]
  omega

/-- `pmm_alloc` hands out what was asked for, rounded up, or nothing. -/
theorem alloc_length {vm after : Vm} {owner : Owner} {amount : Nat} {range : Range} (sized : vm.pmm.Sized)
    (ran : vm.alloc owner amount = .ok (range, after)) (some : range.length ≠ 0) :
    range.base % 4096 = 0 ∧ range.length % 4096 = 0 ∧ amount ≤ range.length ∧ range.length < amount + 4096 := by
  obtain ⟨⟨found, pmm⟩, allocated, rest⟩ := bind_ok ran
  cases rest
  obtain ⟨-, -, search⟩ := bind_ok allocated
  rcases Pmm.pmmFindPages_ok sized search with ⟨fit, taken, -⟩ | ⟨rfl, -⟩
  · exact ⟨fit.base, fit.length, fit.enough, fit.tight⟩
  · exact absurd rfl some

/-- The bytes of a module, by physical address. -/
def Module (elf : Range) (place : Nat) : Prop :=
  mmapIoToPhys elf.base ≤ place ∧ place < mmapIoToPhys elf.base + elf.length

/-- Where the boot loader puts a module: in the direct map, in frames that are
neither free nor page tables. -/
structure Placed (roots : Nat → Prop) (vm : Vm) (elf : Range) : Prop where
  low : mmapIoBase ≤ elf.base
  high : elf.base + elf.length ≤ 2 ^ 64
  reserved : ∀ place, Module elf place → Reserved roots vm (place / 4096)

/-- An access of `count` bytes inside a range. -/
def Inside (range : Range) (address count : Nat) : Prop :=
  range.base ≤ address ∧ address + count ≤ range.base + range.length

theorem Placed.grow {before after : Vm} {elf : Range} (placed : Placed roots before elf)
    (grows : Grows roots before after) : Placed roots after elf :=
  ⟨placed.low, placed.high, fun place inside => grows.reserved (placed.reserved place inside)⟩

theorem Placed.inside {vm : Vm} {elf : Range} {address count : Nat} (placed : Placed roots vm elf)
    (inside : Inside elf address count) {place : Nat} (low : mmapIoToPhys address ≤ place)
    (high : place < mmapIoToPhys address + count) : Module elf place := by
  have base := placed.low
  have top := placed.high
  obtain ⟨first, last⟩ := inside
  simp only [Module, mmapIoToPhys, wrapSub, wrap, mmapIoBase] at *
  omega

/-- While a load only grows the machine, the module reads the same. -/
theorem Placed.member_kept {start vm : Vm} {elf : Range} {pointer offset count : Nat} (placed : Placed roots start elf)
    (grows : Grows roots start vm) (inside : Inside elf (wrap (pointer + offset)) count) :
    member vm.mem pointer offset count = member start.mem pointer offset count := by
  unfold member
  apply Bytes.read_congr
  intro place low high
  exact grows.reserved_byte (placed.reserved place (placed.inside inside low high))

/-- The accesses a load may make. -/
def Access.Safe (elf : Range) : Access → Prop
  | .read address count => count = 0 ∨ Inside elf address count
  | .write address count frames => count = 0 ∨ Inside ⟨mmapPhysToIo frames.base, frames.length⟩ address count
  | .map virt => UserHalf virt

@[simp] theorem outcome_readMember (mem : Bytes) (pointer offset count : Nat) :
    (readMember mem pointer offset count).outcome = .ok (member mem pointer offset count) := rfl

theorem only_readMember {kind : Access → Prop} {mem : Bytes} {pointer offset count : Nat} :
    Traced.Only kind (readMember mem pointer offset count) ↔ kind (.read (wrap (pointer + offset)) count) := by
  simp [Traced.Only, readMember, Bind.bind, Traced.bind, Traced.emit, Pure.pure, Traced.pure]

@[simp] theorem outcome_copyAccesses (addr : Range) (src filesz : Nat) :
    (copyAccesses addr src filesz).outcome = .ok () := by
  unfold copyAccesses
  split <;> rfl

theorem only_copyAccesses {kind : Access → Prop} {addr : Range} {src filesz : Nat} :
    Traced.Only kind (copyAccesses addr src filesz) ↔
      (src ≠ 0 → kind (.read src filesz) ∧ kind (.write (mmapPhysToIo addr.base) filesz addr)) := by
  unfold copyAccesses
  split
  next null => simp [null, Traced.only_pure]
  next present => simp [present, Traced.only_bind, Traced.only_emit]

/-- The memory after the copy of a segment. -/
def copied (elf : Range) (phdr : Nat) (addr : Range) (mem : Bytes) : Bytes :=
  memcpy mem (mmapPhysToIo addr.base) (wrap (elf.base + member mem phdr pOffset 8)) (member mem phdr pFilesz 8)

/-- The memory after the zero fill, which goes by the header as the copy left it. -/
def filled (elf : Range) (phdr : Nat) (addr : Range) (mem : Bytes) : Bytes :=
  let mem := copied elf phdr addr mem
  memset mem (wrap (mmapPhysToIo addr.base + member mem phdr pFilesz 8)) 0
    (wrapSub (member mem phdr pMemsz 8) (member mem phdr pFilesz 8))

theorem copySegment_outcome (elf : Range) (phdr : Nat) (addr : Range) (vm : Vm) :
    (copySegment elf phdr addr vm).outcome = .ok { vm with mem := filled elf phdr addr vm.mem } := by
  simp only [copySegment, Traced.outcome_bind, outcome_readMember, outcome_copyAccesses, Traced.outcome_emit,
    Traced.outcome_pure, ok_bind, copied, filled]

theorem only_copySegment {kind : Access → Prop} {elf : Range} {phdr : Nat} {addr : Range} {vm : Vm} :
    Traced.Only kind (copySegment elf phdr addr vm) ↔
      kind (.read (wrap (phdr + pOffset)) 8) ∧ kind (.read (wrap (phdr + pFilesz)) 8) ∧
      (wrap (elf.base + member vm.mem phdr pOffset 8) ≠ 0 →
        kind (.read (wrap (elf.base + member vm.mem phdr pOffset 8)) (member vm.mem phdr pFilesz 8)) ∧
        kind (.write (mmapPhysToIo addr.base) (member vm.mem phdr pFilesz 8) addr)) ∧
      kind (.read (wrap (phdr + pFilesz)) 8) ∧ kind (.read (wrap (phdr + pMemsz)) 8) ∧
      kind (.write (wrap (mmapPhysToIo addr.base + member (copied elf phdr addr vm.mem) phdr pFilesz 8))
        (wrapSub (member (copied elf phdr addr vm.mem) phdr pMemsz 8)
          (member (copied elf phdr addr vm.mem) phdr pFilesz 8)) addr) := by
  simp only [copySegment, Traced.only_bind, only_readMember, outcome_readMember, only_copyAccesses,
    outcome_copyAccesses, Traced.only_emit, Traced.outcome_emit, Traced.only_pure, Except.ok.injEq, forall_eq', copied]
  simp

theorem member_lt (mem : Bytes) (pointer offset : Nat) : member mem pointer offset 8 < 2 ^ 64 := by
  unfold member
  exact Bytes.read_lt mem _ 8

/-- The machine in the middle of a load that began at `start`. -/
structure Loading (roots : Nat → Prop) (start vm : Vm) : Prop where
  spaces : Spaces roots vm
  grows : Grows roots start vm

/-- Frames a load was given: free at its start, reserved now, below the end of the direct map. -/
structure Granted (roots : Nat → Prop) (start vm : Vm) (addr : Range) : Prop where
  base : addr.base % 4096 = 0
  length : addr.length % 4096 = 0
  small : addr.base + addr.length ≤ 2 ^ 46
  was : ∀ page ∈ addr.pages, Available start.pmm page
  reserved : ∀ page ∈ addr.pages, Reserved roots vm page

namespace Granted

variable {start vm : Vm} {addr elf : Range} {phdr : Nat}

theorem page (granted : Granted roots start vm addr) {place : Nat} :
    place / 4096 ∈ addr.pages ↔ addr.base ≤ place ∧ place < addr.base + addr.length := by
  have base := granted.base
  have length := granted.length
  rw [Range.mem_pages]
  omega

theorem grow {after : Vm} (granted : Granted roots start vm addr) (grows : Grows roots vm after) :
    Granted roots start after addr :=
  ⟨granted.base, granted.length, granted.small, granted.was, fun page inside =>
    grows.reserved (granted.reserved page inside)⟩

theorem apart (granted : Granted roots start vm addr) (placed : Placed roots start elf) {place : Nat}
    (inside : Module elf place) : ¬ (addr.base ≤ place ∧ place < addr.base + addr.length) := fun here =>
  (placed.reserved place inside).held (granted.was _ (granted.page.mpr here))

theorem write (granted : Granted roots start vm addr) (loading : Loading roots start vm) {mem : Bytes}
    (same : ∀ place, ¬ (addr.base ≤ place ∧ place < addr.base + addr.length) → mem place = vm.mem place) :
    Loading roots start { vm with mem } := by
  have kept (place : Nat) (outside : ¬ place / 4096 ∈ addr.pages) : mem place = vm.mem place :=
    same place fun here => outside (granted.page.mpr here)
  exact ⟨(loading.spaces.overwritten granted.reserved kept).1,
    loading.grows.overwritten loading.spaces granted.reserved granted.was kept⟩

theorem pointer (granted : Granted roots start vm addr) : mmapIoToPhys (mmapPhysToIo addr.base) = addr.base := by
  have small := granted.small
  exact phys_io _ (by omega)

theorem io (granted : Granted roots start vm addr) : mmapPhysToIo addr.base = mmapIoBase + addr.base := by
  have small := granted.small
  unfold mmapPhysToIo
  simp only [wrap, mmapIoBase]
  omega

/-- A copy of no more than the frames hold, or from nowhere, leaves the rest alone. -/
theorem copied_apart (granted : Granted roots start vm addr)
    (fits : wrap (elf.base + member vm.mem phdr pOffset 8) ≠ 0 → member vm.mem phdr pFilesz 8 ≤ addr.length)
    {place : Nat} (outside : ¬ (addr.base ≤ place ∧ place < addr.base + addr.length)) :
    copied elf phdr addr vm.mem place = vm.mem place := by
  unfold copied memcpy
  split
  next => rfl
  next present =>
    have fits := fits present
    rw [granted.pointer]
    exact Bytes.copy_apart _ _ _ _ _ (by omega)

theorem filled_apart (granted : Granted roots start vm addr)
    (size : member (copied elf phdr addr vm.mem) phdr pFilesz 8 ≤ member (copied elf phdr addr vm.mem) phdr pMemsz 8)
    (fits : member (copied elf phdr addr vm.mem) phdr pMemsz 8 ≤ addr.length) {place : Nat}
    (outside : ¬ (addr.base ≤ place ∧ place < addr.base + addr.length)) :
    filled elf phdr addr vm.mem place = copied elf phdr addr vm.mem place := by
  have small := granted.small
  unfold filled memset
  generalize member (copied elf phdr addr vm.mem) phdr pFilesz 8 = filesz at size
  generalize member (copied elf phdr addr vm.mem) phdr pMemsz 8 = memsz at size fits
  have target : mmapIoToPhys (wrap (mmapPhysToIo addr.base + filesz)) = addr.base + filesz := by
    rw [io_offset, wrap_of_lt (by omega)]
  have rest : wrapSub memsz filesz = memsz - filesz := by
    simp only [wrapSub, wrap]
    omega
  rw [target, rest]
  exact Bytes.fill_apart _ _ _ _ _ (by omega)

end Granted

/-- A segment whose header and data lie in the module, whose data fits its
memory, and whose pages lie in the user half. -/
structure SegmentFits (mem : Bytes) (elf : Range) (phdr : Nat) : Prop where
  members : ∀ offset ∈ [pOffset, pVaddr, pFilesz, pMemsz], Inside elf (wrap (phdr + offset)) 8
  data : wrap (elf.base + member mem phdr pOffset 8) ≠ 0 → member mem phdr pFilesz 8 ≠ 0 →
    Inside elf (wrap (elf.base + member mem phdr pOffset 8)) (member mem phdr pFilesz 8)
  size : member mem phdr pFilesz 8 ≤ member mem phdr pMemsz 8
  half : alignDown (member mem phdr pVaddr 8) pageSize + alignUp (member mem phdr pMemsz 8) pageSize ≤ 2 ^ 47

/-- The second write of a segment stays in its frames exactly when the data is
no longer than the memory. -/
private theorem fill_safe {elf addr : Range} {filesz memsz : Nat} (file : filesz < 2 ^ 64)
    (fits : memsz ≤ addr.length) (small : addr.base + addr.length ≤ 2 ^ 46)
    (io : mmapPhysToIo addr.base = mmapIoBase + addr.base) :
    (Access.write (wrap (mmapPhysToIo addr.base + filesz)) (wrapSub memsz filesz) addr).Safe elf ↔ filesz ≤ memsz := by
  simp only [Access.Safe, Inside, io, wrapSub, wrap, mmapIoBase]
  omega

namespace Granted

variable {start vm : Vm} {addr elf : Range} {phdr : Nat}

theorem copy_safe (granted : Granted roots start vm addr) (placed : Placed roots start elf)
    (loading : Loading roots start vm) (fits' : member start.mem phdr pMemsz 8 ≤ addr.length)
    (header : Inside elf (wrap (phdr + pMemsz)) 8) :
    (Traced.Only (Access.Safe elf) (copySegment elf phdr addr vm) ↔
      Inside elf (wrap (phdr + pOffset)) 8 ∧ Inside elf (wrap (phdr + pFilesz)) 8 ∧
      (wrap (elf.base + member start.mem phdr pOffset 8) ≠ 0 → member start.mem phdr pFilesz 8 ≠ 0 →
        Inside elf (wrap (elf.base + member start.mem phdr pOffset 8)) (member start.mem phdr pFilesz 8)) ∧
      member start.mem phdr pFilesz 8 ≤ member start.mem phdr pMemsz 8) ∧
    (Traced.Only (Access.Safe elf) (copySegment elf phdr addr vm) →
      Loading roots start { vm with mem := filled elf phdr addr vm.mem }) := by
  have kept {offset : Nat} (inside : Inside elf (wrap (phdr + offset)) 8) := placed.member_kept loading.grows inside
  have io := granted.io
  have small := granted.small
  -- while the copy stays in the frames, the header still reads as it did
  have again {offset : Nat} (inside : Inside elf (wrap (phdr + offset)) 8)
      (fits : wrap (elf.base + member vm.mem phdr pOffset 8) ≠ 0 → member vm.mem phdr pFilesz 8 ≤ addr.length) :
      member (copied elf phdr addr vm.mem) phdr offset 8 = member start.mem phdr offset 8 := by
    rw [← kept inside]
    unfold member
    apply Bytes.read_congr
    intro place low high
    exact granted.copied_apart fits (granted.apart placed (placed.inside inside low high))
  have eight : (8 : Nat) ≠ 0 := by decide
  have first (filesz : Nat) : (Access.write (mmapPhysToIo addr.base) filesz addr).Safe elf ↔ filesz ≤ addr.length := by
    simp only [Access.Safe, Inside]
    omega
  have file := member_lt start.mem phdr pFilesz
  have sound (only : Traced.Only (Access.Safe elf) (copySegment elf phdr addr vm)) :
      Inside elf (wrap (phdr + pOffset)) 8 ∧ Inside elf (wrap (phdr + pFilesz)) 8 ∧
      (wrap (elf.base + member start.mem phdr pOffset 8) ≠ 0 →
        (Access.read (wrap (elf.base + member start.mem phdr pOffset 8)) (member start.mem phdr pFilesz 8)).Safe elf ∧
        member start.mem phdr pFilesz 8 ≤ addr.length) ∧
      member start.mem phdr pFilesz 8 ≤ member start.mem phdr pMemsz 8 := by
    obtain ⟨offset, length, data, -, -, fill⟩ := only_copySegment.mp only
    have offset := offset.resolve_left eight
    have length := length.resolve_left eight
    rw [kept offset, kept length, first] at data
    have fits : wrap (elf.base + member vm.mem phdr pOffset 8) ≠ 0 → member vm.mem phdr pFilesz 8 ≤ addr.length := by
      rw [kept offset, kept length]
      exact fun present => (data present).2
    rw [again length fits, again header fits] at fill
    exact ⟨offset, length, data, (fill_safe file fits' small io).mp fill⟩
  refine ⟨⟨fun only => ?_, fun ⟨offset, length, data, size⟩ => ?_⟩, fun only => ?_⟩
  · obtain ⟨offset, length, data, size⟩ := sound only
    exact ⟨offset, length, fun present nonzero => (data present).1.resolve_left nonzero, size⟩
  · have fits : wrap (elf.base + member vm.mem phdr pOffset 8) ≠ 0 → member vm.mem phdr pFilesz 8 ≤ addr.length := by
      rw [kept length]
      exact fun _ => Nat.le_trans size fits'
    rw [only_copySegment, again length fits, again header fits, kept offset, kept length, first]
    refine ⟨.inr offset, .inr length, fun present => ⟨?_, Nat.le_trans size fits'⟩, .inr length, .inr header,
      (fill_safe file fits' small io).mpr size⟩
    by_cases empty : member start.mem phdr pFilesz 8 = 0
    · exact .inl empty
    · exact .inr (data present empty)
  · obtain ⟨offset, length, data, size⟩ := sound only
    have fits : wrap (elf.base + member vm.mem phdr pOffset 8) ≠ 0 → member vm.mem phdr pFilesz 8 ≤ addr.length := by
      rw [kept length]
      exact fun _ => Nat.le_trans size fits'
    apply granted.write loading
    intro place outside
    rw [granted.filled_apart ?_ ?_ outside, granted.copied_apart fits outside]
    · rwa [again length fits, again header fits]
    · rwa [again header fits]

end Granted

theorem mapSegment_outcome (vm : Vm) (pml : Nat) (virt phys : Range) :
    (mapSegment vm pml virt phys).outcome = vmmMapRange vm pml virt phys true := by
  simp only [mapSegment, Traced.outcome_bind, Traced.outcome_silent, Traced.outcome_foldlM,
    Traced.outcome_emit, ok_bind]
  rfl

/-- The page of the new space that round `index` of a mapping is about. -/
def segmentPage (vaddr index : Nat) : Nat := wrap (index * pageSize + alignDown vaddr pageSize)

theorem only_mapSegment {kind : Access → Prop} {vm : Vm} {pml : Nat} {virt phys : Range}
    (pages : ∀ index, index < virt.length / pageSize → kind (.map (segmentPage virt.base index))) :
    Traced.Only kind (mapSegment vm pml virt phys) := by
  unfold mapSegment
  refine Traced.only_bind.mpr ⟨Traced.only_silent _, fun _ _ => Traced.only_foldlM (fun _ => True) ?_ trivial⟩
  intro state index inside _
  refine ⟨Traced.only_bind.mpr ⟨Traced.only_emit.mpr (pages index (List.mem_range.mp inside)), fun _ _ =>
    Traced.only_silent _⟩, fun _ _ => trivial⟩

theorem mapSegment_pages {kind : Access → Prop} {vm after : Vm} {pml : Nat} {virt phys : Range}
    (ran : (mapSegment vm pml virt phys).outcome = .ok after) (only : Traced.Only kind (mapSegment vm pml virt phys))
    {index : Nat} (inside : index < virt.length / pageSize) : kind (.map (segmentPage virt.base index)) := by
  unfold mapSegment at ran only
  rw [Traced.outcome_bind] at ran
  obtain ⟨⟨⟩, checked, ran⟩ := bind_ok ran
  have turns := (Traced.only_bind.mp only).2 _ checked
  obtain ⟨state, turn⟩ := Traced.only_foldlM_ok ran turns (List.mem_range.mpr inside)
  exact Traced.only_emit.mp (Traced.only_bind.mp turn).1

/-- All pages of a range are in the user half exactly when its end is. -/
theorem segment_half {vaddr length : Nat} (aligned : length % 4096 = 0) (some : length ≠ 0) (small : length ≤ 2 ^ 46) :
    (∀ index, index < length / pageSize → UserHalf (segmentPage vaddr index)) ↔
      alignDown vaddr pageSize + length ≤ 2 ^ 47 := by
  unfold segmentPage
  have base : alignDown vaddr pageSize % 4096 = 0 ∧ alignDown vaddr pageSize < 2 ^ 64 := by
    rw [alignDown_page]
    simp only [wrap]
    omega
  generalize alignDown vaddr pageSize = start at base ⊢
  simp only [UserHalf, wrap, pageSize]
  constructor
  · intro half
    have first := half 0 (by omega)
    by_contra beyond
    have crossing := half ((2 ^ 47 - start) / 4096) (by omega)
    omega
  · intro below index inside
    omega

theorem loadSegment_ok {elf : Range} {pml phdr : Nat} {vm after : Vm}
    (ran : (loadSegment elf pml phdr vm).outcome = .ok after) :
    ∃ addr given mapped, vm.alloc (.segment pml) (alignUp (member vm.mem phdr pMemsz 8) pageSize) = .ok (addr, given) ∧
      addr.length ≠ 0 ∧ vmmMapRange given pml ⟨member given.mem phdr pVaddr 8, addr.length⟩ addr true = .ok mapped ∧
      after = { mapped with mem := filled elf phdr addr mapped.mem } := by
  simp only [loadSegment, Traced.outcome_bind, outcome_readMember, Traced.outcome_silent, mapSegment_outcome,
    copySegment_outcome, ok_bind] at ran
  obtain ⟨⟨addr, given⟩, allocated, ran⟩ := bind_ok ran
  obtain ⟨⟨⟩, checked, ran⟩ := bind_ok ran
  obtain ⟨mapped, mapping, rest⟩ := bind_ok ran
  exact ⟨addr, given, mapped, allocated, check_ok checked, mapping, (Except.ok.inj rest).symm⟩

/-- What a segment's allocation gives, once its size is known not to be 0. -/
theorem Loading.granted {start vm given : Vm} {owner : Owner} {size : Nat} {addr : Range}
    (loading : Loading roots start vm) (bound : start.pmm.bitmapSize ≤ 2 ^ 34) (word : size < 2 ^ 64)
    (allocated : vm.alloc owner (alignUp size pageSize) = .ok (addr, given)) (some : addr.length ≠ 0) :
    Loading roots start given ∧ Granted roots start given addr ∧ given.mem = vm.mem ∧ size ≤ addr.length ∧
      addr.length = alignUp size pageSize := by
  obtain ⟨spaces, grows, mem, pages⟩ := loading.spaces.allocated allocated
  obtain ⟨base, length, enough, tight⟩ := alloc_length loading.spaces.sized allocated some
  have was (page : Nat) (inside : page ∈ addr.pages) : Available start.pmm page :=
    loading.grows.available page (pages page inside).1
  have last : addr.base / 4096 + addr.length / 4096 - 1 ∈ addr.pages := Range.mem_pages.mpr (by omega)
  have below := (was _ last).1
  have up : alignUp size pageSize = (size + 4095) / 4096 * 4096 := by
    by_cases small : size + 4095 < 2 ^ 64
    · exact alignUp_page size small
    · have wraps : alignUp size pageSize = 0 := by
        rw [alignUp, alignDown_page]
        simp only [wrap, pageSize]
        omega
      omega
  exact ⟨⟨spaces, loading.grows.trans grows⟩,
    ⟨base, length, by omega, was, fun page inside => (pages page inside).2⟩, mem, by omega, by omega⟩

/-- Mapping pages of the user half is part of a load. -/
theorem Loading.mapped {start vm after : Vm} {root : Nat} {virt phys : Range} (loading : Loading roots start vm)
    (isRoot : roots root) (half : ∀ index, index < virt.length / pageSize → UserHalf (segmentPage virt.base index))
    (ran : vmmMapRange vm (mmapPhysToIo root) virt phys true = .ok after) :
    Loading roots start after ∧ Grows roots vm after := by
  have touched := vmmMapRange_touched loading.spaces isRoot ran (fun index _ => (rfl : _ = segmentPage virt.base index))
    (fun index inside => .inl (half index inside)) (fun index inside => .inl (half index inside))
  exact ⟨⟨touched.spaces, loading.grows.trans touched.grows⟩, touched.grows⟩

namespace Loading

variable {start vm : Vm} {elf : Range} {root phdr : Nat}

/-- A segment that fits makes safe accesses only, even where it runs out of memory. -/
theorem segment_safe (loading : Loading roots start vm) (placed : Placed roots start elf)
    (bound : start.pmm.bitmapSize ≤ 2 ^ 34) (isRoot : roots root) (fits : SegmentFits start.mem elf phdr) :
    Traced.Only (Access.Safe elf) (loadSegment elf (mmapPhysToIo root) phdr vm) := by
  have inside {offset : Nat} (member : offset ∈ [pOffset, pVaddr, pFilesz, pMemsz]) := fits.members offset member
  have memsz := placed.member_kept loading.grows (inside (show pMemsz ∈ _ by decide))
  unfold loadSegment
  refine Traced.only_bind.mpr ⟨only_readMember.mpr (.inr (inside (by decide))), ?_⟩
  rintro _ ⟨⟩
  rw [memsz]
  refine Traced.only_bind.mpr ⟨Traced.only_silent _, ?_⟩
  rintro ⟨addr, given⟩ allocated
  refine Traced.only_bind.mpr ⟨Traced.only_silent _, fun _ checked => ?_⟩
  have some := check_ok checked
  obtain ⟨grown, granted, mem, size, length⟩ := loading.granted bound (member_lt _ _ _) allocated some
  have vaddr := placed.member_kept grown.grows (inside (show pVaddr ∈ _ by decide))
  refine Traced.only_bind.mpr ⟨only_readMember.mpr (.inr (inside (by decide))), ?_⟩
  rintro _ ⟨⟩
  rw [vaddr]
  have half := (segment_half granted.length some (by have := granted.small; omega)).mpr (length ▸ fits.half)
  refine Traced.only_bind.mpr ⟨only_mapSegment half, fun mapped mapping => ?_⟩
  rw [mapSegment_outcome] at mapping
  obtain ⟨grown, grows⟩ := grown.mapped isRoot half mapping
  refine ((granted.grow grows).copy_safe placed grown size (inside (by decide))).1.mpr ⟨inside (by decide),
    inside (by decide), ?_, fits.size⟩
  exact fits.data

/-- A segment that was loaded by safe accesses only did fit. -/
theorem segment_fits (loading : Loading roots start vm) (placed : Placed roots start elf)
    (bound : start.pmm.bitmapSize ≤ 2 ^ 34) (isRoot : roots root) {after : Vm}
    (ran : (loadSegment elf (mmapPhysToIo root) phdr vm).outcome = .ok after)
    (only : Traced.Only (Access.Safe elf) (loadSegment elf (mmapPhysToIo root) phdr vm)) :
    SegmentFits start.mem elf phdr ∧ Loading roots start after := by
  obtain ⟨addr, given, mapped, allocated, some, mapping, rfl⟩ := loadSegment_ok ran
  have eight : (8 : Nat) ≠ 0 := by decide
  unfold loadSegment at only
  obtain ⟨first, only⟩ := Traced.only_bind.mp only
  have memsz := (only_readMember.mp first).resolve_left eight
  obtain ⟨-, only⟩ := Traced.only_bind.mp (only _ rfl)
  obtain ⟨-, only⟩ := Traced.only_bind.mp (only _ allocated)
  obtain ⟨second, only⟩ := Traced.only_bind.mp (only () (check_true _ some))
  have vaddr := (only_readMember.mp second).resolve_left eight
  obtain ⟨pages, only⟩ := Traced.only_bind.mp (only _ rfl)
  rw [← mapSegment_outcome] at mapping
  have copy := only _ mapping
  rw [placed.member_kept loading.grows memsz] at allocated
  obtain ⟨grown, granted, mem, size, length⟩ := loading.granted bound (member_lt _ _ _) allocated some
  have half (index : Nat) (inside : index < addr.length / pageSize) := mapSegment_pages mapping pages inside
  dsimp only at pages half
  rw [placed.member_kept grown.grows vaddr] at half
  have user := (segment_half granted.length some (by have := granted.small; omega)).mp half
  rw [mapSegment_outcome, placed.member_kept grown.grows vaddr] at mapping
  obtain ⟨grown, grows⟩ := grown.mapped isRoot half mapping
  have safe := (granted.grow grows).copy_safe placed grown size memsz
  obtain ⟨offset, filesz, data, sizes⟩ := safe.1.mp copy
  refine ⟨⟨?_, data, sizes, length ▸ user⟩, safe.2 copy⟩
  intro place among
  simp only [List.mem_cons, List.not_mem_nil, or_false] at among
  rcases among with rfl | rfl | rfl | rfl
  · exact offset
  · exact vaddr
  · exact filesz
  · exact memsz

end Loading

theorem loadSegments_succ (elf : Range) (pml fuel phdr : Nat) (vm : Vm) : loadSegments elf pml (fuel + 1) phdr vm = (do
    let phnum ← readMember vm.mem elf.base ePhnum 2
    if 2 ^ 16 - (fuel + 1) < phnum then do
      let type ← readMember vm.mem phdr pType 4
      let vm ← loadHeader elf pml phdr type vm
      let phentsize ← readMember vm.mem elf.base ePhentsize 2
      loadSegments elf pml fuel (wrap (phdr + phentsize)) vm
    else pure vm) := rfl

theorem loadSegments_ok {elf : Range} {pml fuel phdr : Nat} {vm after : Vm}
    (ran : (loadSegments elf pml (fuel + 1) phdr vm).outcome = .ok after) :
    2 ^ 16 - (fuel + 1) < member vm.mem elf.base ePhnum 2 ∧
        (∃ middle, (loadHeader elf pml phdr (member vm.mem phdr pType 4) vm).outcome = .ok middle ∧
          (loadSegments elf pml fuel (wrap (phdr + member middle.mem elf.base ePhentsize 2)) middle).outcome =
            .ok after) ∨
      member vm.mem elf.base ePhnum 2 ≤ 2 ^ 16 - (fuel + 1) ∧ after = vm := by
  rw [loadSegments_succ, Traced.outcome_bind, outcome_readMember, ok_bind] at ran
  split at ran
  next more =>
    rw [Traced.outcome_bind, outcome_readMember, ok_bind, Traced.outcome_bind] at ran
    obtain ⟨middle, turn, ran⟩ := bind_ok ran
    rw [Traced.outcome_bind, outcome_readMember, ok_bind] at ran
    exact .inl ⟨more, middle, turn, ran⟩
  next fewer => exact .inr ⟨Nat.le_of_not_lt fewer, (Except.ok.inj ran).symm⟩

/-- What every header keeps the loop keeps. -/
theorem loadSegments_keeps {elf : Range} {pml fuel phdr : Nat} {vm after : Vm} {kept : Vm → Prop}
    (step : ∀ phdr type vm after, kept vm → (loadHeader elf pml phdr type vm).outcome = .ok after → kept after)
    (holds : kept vm) (ran : (loadSegments elf pml fuel phdr vm).outcome = .ok after) : kept after := by
  induction fuel generalizing vm phdr with
  | zero =>
    obtain rfl := Except.ok.inj ran
    exact holds
  | succ fuel ih =>
    rcases loadSegments_ok ran with ⟨-, middle, turn, rest⟩ | ⟨-, rfl⟩
    · exact ih (step _ _ _ _ holds turn) rest
    · exact holds

theorem taskInit_ok {kernel after : Kernel} {pml rip : Nat} {block bstack : HeapCall} {process : Process}
    (ran : taskInit kernel pml rip block bstack = .ok (process, after)) :
    ∃ block' zeroed pointer grown stack given mapped, kcalloc kernel processSize block = .ok (block', zeroed) ∧
      kmalloc zeroed kernelStackSize bstack = .ok (pointer, grown) ∧
      grown.vm.alloc (.stack pml) kernelStackSize = .ok (stack, given) ∧ stack.length ≠ 0 ∧
      vmmMapRange given pml ⟨userStackBase, kernelStackSize⟩ stack true = .ok mapped ∧
      process = newTask pml rip pointer stack ∧ after = { grown with vm := mapped } := by
  obtain ⟨⟨block', zeroed⟩, first, ran⟩ := bind_ok ran
  obtain ⟨⟨pointer, grown⟩, second, ran⟩ := bind_ok ran
  obtain ⟨⟨stack, given⟩, allocated, ran⟩ := bind_ok ran
  obtain ⟨⟨⟩, checked, ran⟩ := bind_ok ran
  obtain ⟨mapped, mapping, rest⟩ := bind_ok ran
  obtain ⟨rfl, rfl⟩ := Prod.mk.inj (Except.ok.inj rest)
  exact ⟨block', zeroed, pointer, grown, stack, given, mapped, first, second, allocated, check_ok checked,
    mapping, rfl, rfl⟩

theorem loadElfModule_ok {kernel after : Kernel} {elf : Range} {block bstack : HeapCall} {process : Process}
    (ran : (loadElfModule kernel elf block bstack).outcome = .ok (process, after)) :
    ∃ pml vm loaded, vmmSpaceCreate kernel.vm = .ok (pml, vm) ∧
      (loadSegments elf pml (2 ^ 16) (wrap (elf.base + member kernel.vm.mem elf.base ePhoff 8)) vm).outcome =
        .ok loaded ∧
      taskInit { kernel with vm := loaded } pml (member loaded.mem elf.base eEntry 8) block bstack = .ok
        (process, after) := by
  simp only [loadElfModule, Traced.outcome_bind, outcome_readMember, Traced.outcome_silent, ok_bind] at ran
  obtain ⟨⟨pml, vm⟩, made, ran⟩ := bind_ok ran
  obtain ⟨loaded, loop, ran⟩ := bind_ok ran
  exact ⟨pml, vm, loaded, made, loop, ran⟩

end Navy
