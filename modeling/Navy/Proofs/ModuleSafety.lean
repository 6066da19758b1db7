import Navy.Proofs.FirstProcess

/-! Which modules the loader handles without touching memory that is not
theirs: it checks nothing, so exactly those whose headers are sound. -/

namespace Navy
open Paging Outcome

variable {roots : Nat → Prop}

/-- The place of a program header. -/
def phdrAt (mem : Bytes) (elf : Range) (index : Nat) : Nat :=
  wrap (elf.base + member mem elf.base ePhoff 8 + index * member mem elf.base ePhentsize 2)

structure ModuleFits (mem : Bytes) (elf : Range) : Prop where
  /-- The header lies in the module up to `e_phnum`, the last member the loader reads. -/
  header : ePhnum + 2 ≤ elf.length
  segments : ∀ index, index < member mem elf.base ePhnum 2 →
    Inside elf (wrap (phdrAt mem elf index + pType)) 4 ∧
      (member mem (phdrAt mem elf index) pType 4 = ptLoad → SegmentFits mem elf (phdrAt mem elf index))

theorem phdrAt_succ (mem : Bytes) (elf : Range) (index : Nat) :
    wrap (phdrAt mem elf index + member mem elf.base ePhentsize 2) = phdrAt mem elf (index + 1) := by
  unfold phdrAt
  rw [Nat.succ_mul]
  simp only [wrap]
  omega

theorem header_inside {vm : Vm} {elf : Range} (placed : Placed roots vm elf) (offset count : Nat) (some : count ≠ 0)
    (small : offset + count ≤ 2 ^ 16) : Inside elf (wrap (elf.base + offset)) count ↔ offset + count ≤ elf.length := by
  have low := placed.low
  have high := placed.high
  simp only [Inside, wrap, mmapIoBase] at *
  omega

namespace Loading

variable {start vm : Vm} {elf : Range} {root : Nat}

/-- One round, on a header that fits or is not a segment. -/
private theorem round (loading : Loading roots start vm) (placed : Placed roots start elf)
    (bound : start.pmm.bitmapSize ≤ 2 ^ 34) (isRoot : roots root) {phdr type : Nat}
    (fits : type = ptLoad → SegmentFits start.mem elf phdr) :
    Traced.Only (Access.Safe elf) (loadHeader elf (mmapPhysToIo root) phdr type vm) ∧
      ∀ after, (loadHeader elf (mmapPhysToIo root) phdr type vm).outcome = .ok after → Loading roots start after := by
  unfold loadHeader
  split
  next load =>
    have safe := loading.segment_safe placed bound isRoot (fits load)
    exact ⟨safe, fun after ran => (loading.segment_fits placed bound isRoot ran safe).2⟩
  next =>
    refine ⟨Traced.only_pure vm, fun after ran => ?_⟩
    obtain rfl := Except.ok.inj ran
    exact loading

theorem segments_safe {fuel : Nat} (loading : Loading roots start vm) (placed : Placed roots start elf)
    (bound : start.pmm.bitmapSize ≤ 2 ^ 34) (isRoot : roots root) (fits : ModuleFits start.mem elf)
    (most : fuel ≤ 2 ^ 16) :
    Traced.Only (Access.Safe elf)
      (loadSegments elf (mmapPhysToIo root) fuel (phdrAt start.mem elf (2 ^ 16 - fuel)) vm) := by
  have header := fits.header
  have count : Inside elf (wrap (elf.base + ePhnum)) 2 := (header_inside placed _ _ (by decide) (by decide)).mpr header
  have stride : Inside elf (wrap (elf.base + ePhentsize)) 2 :=
    (header_inside placed _ _ (by decide) (by decide)).mpr (Nat.le_trans (by decide) header)
  induction fuel generalizing vm with
  | zero => exact Traced.only_pure vm
  | succ fuel ih =>
    rw [loadSegments_succ]
    refine Traced.only_bind.mpr ⟨only_readMember.mpr (.inr count), ?_⟩
    rintro _ ⟨⟩
    rw [placed.member_kept loading.grows count]
    split
    next more =>
      obtain ⟨inside, segment⟩ := fits.segments _ more
      refine Traced.only_bind.mpr ⟨only_readMember.mpr (.inr inside), ?_⟩
      rintro _ ⟨⟩
      rw [placed.member_kept loading.grows inside]
      obtain ⟨safe, grown⟩ := loading.round placed bound isRoot segment
      refine Traced.only_bind.mpr ⟨safe, fun after ran => ?_⟩
      refine Traced.only_bind.mpr ⟨only_readMember.mpr (.inr stride), ?_⟩
      rintro _ ⟨⟩
      rw [placed.member_kept (grown after ran).grows stride, phdrAt_succ, show 2 ^ 16 - (fuel + 1) + 1 =
        2 ^ 16 - fuel by omega]
      exact ih (grown after ran) (by omega)
    next => exact Traced.only_pure vm

theorem segments_fit {fuel : Nat} (loading : Loading roots start vm) (placed : Placed roots start elf)
    (bound : start.pmm.bitmapSize ≤ 2 ^ 34) (isRoot : roots root) (most : fuel ≤ 2 ^ 16) {after : Vm}
    (ran : (loadSegments elf (mmapPhysToIo root) fuel (phdrAt start.mem elf (2 ^ 16 - fuel)) vm).outcome = .ok after)
    (only : Traced.Only (Access.Safe elf)
      (loadSegments elf (mmapPhysToIo root) fuel (phdrAt start.mem elf (2 ^ 16 - fuel)) vm)) :
    (0 < fuel → ePhnum + 2 ≤ elf.length) ∧
      (∀ index, 2 ^ 16 - fuel ≤ index → index < member start.mem elf.base ePhnum 2 →
        Inside elf (wrap (phdrAt start.mem elf index + pType)) 4 ∧
          (member start.mem (phdrAt start.mem elf index) pType 4 = ptLoad →
            SegmentFits start.mem elf (phdrAt start.mem elf index))) ∧
      Loading roots start after := by
  induction fuel generalizing vm with
  | zero =>
    have small : member start.mem elf.base ePhnum 2 < 2 ^ 16 := by
      unfold member
      exact Bytes.read_lt start.mem _ 2
    obtain rfl := Except.ok.inj ran
    exact ⟨nofun, fun index low high => by omega, loading⟩
  | succ fuel ih =>
    have two : (2 : Nat) ≠ 0 := by decide
    have four : (4 : Nat) ≠ 0 := by decide
    rw [loadSegments_succ] at ran only
    obtain ⟨first, only⟩ := Traced.only_bind.mp only
    have count := (only_readMember.mp first).resolve_left two
    have header := (header_inside placed _ _ (by decide) (by decide)).mp count
    have only := only _ rfl
    rw [Traced.outcome_bind, outcome_readMember, ok_bind] at ran
    rw [placed.member_kept loading.grows count] at ran only
    split at ran
    next more =>
      rw [if_pos more] at only
      obtain ⟨second, only⟩ := Traced.only_bind.mp only
      have inside := (only_readMember.mp second).resolve_left four
      have only := only _ rfl
      rw [Traced.outcome_bind, outcome_readMember, ok_bind] at ran
      rw [placed.member_kept loading.grows inside] at ran only
      rw [Traced.outcome_bind] at ran
      obtain ⟨middle, turn, ran⟩ := bind_ok ran
      obtain ⟨body, only⟩ := Traced.only_bind.mp only
      have here : (member start.mem (phdrAt start.mem elf (2 ^ 16 - (fuel + 1))) pType 4 = ptLoad →
          SegmentFits start.mem elf (phdrAt start.mem elf (2 ^ 16 - (fuel + 1)))) ∧ Loading roots start middle := by
        unfold loadHeader at turn body
        split at turn
        next load =>
          rw [if_pos load] at body
          obtain ⟨fits, grown⟩ := loading.segment_fits placed bound isRoot turn body
          exact ⟨fun _ => fits, grown⟩
        next other =>
          obtain rfl := Except.ok.inj turn
          exact ⟨fun load => absurd load other, loading⟩
      obtain ⟨fits, grown⟩ := here
      obtain ⟨third, only⟩ := Traced.only_bind.mp (only middle turn)
      have stride := (only_readMember.mp third).resolve_left two
      have only := only _ rfl
      rw [Traced.outcome_bind, outcome_readMember, ok_bind] at ran
      rw [placed.member_kept grown.grows stride, phdrAt_succ, show 2 ^ 16 - (fuel + 1) + 1 =
        2 ^ 16 - fuel by omega] at ran only
      obtain ⟨-, rest, done⟩ := ih grown (by omega) ran only
      refine ⟨fun _ => header, fun index low high => ?_, done⟩
      rcases Nat.eq_or_lt_of_le low with rfl | later
      · exact ⟨inside, fits⟩
      · exact rest index (by omega) high
    next fewer =>
      obtain rfl := Except.ok.inj ran
      exact ⟨fun _ => header, fun index low high => absurd (Nat.lt_of_le_of_lt low high) fewer, loading⟩

end Loading

/-- What a module is loaded into: the spaces of the machine, the kernel's among
them, and the module in its place below the end of the direct map. -/
structure Loadable (roots : Nat → Prop) (root : Nat) (vm : Vm) (elf : Range) : Prop where
  spaces : Spaces roots vm
  isRoot : roots root
  kernel : KernelSpace root vm
  placed : Placed roots vm elf
  bound : vm.pmm.bitmapSize ≤ 2 ^ 34

theorem Loadable.created {vm after : Vm} {root pml : Nat} {elf : Range} (ready : Loadable roots root vm elf)
    (ran : vmmSpaceCreate vm = .ok (pml, after)) :
    ∃ fresh, pml = mmapPhysToIo fresh ∧ Created roots root vm fresh after ∧
      Loading (fun other => roots other ∨ other = fresh) after after ∧ Placed
        (fun other => roots other ∨ other = fresh) after elf ∧
      after.pmm.bitmapSize ≤ 2 ^ 34 := by
  obtain ⟨fresh, rfl, created⟩ := vmmSpaceCreate_ok ready.spaces ready.isRoot ready.kernel ran
  have placed := ready.placed
  refine ⟨fresh, rfl, created, ⟨created.spaces, .refl _ _⟩, ⟨placed.low, placed.high, fun place inside => ?_⟩, ?_⟩
  · exact created.reserved (placed.reserved place inside)
  · obtain ⟨⟨range, middle⟩, allocated, rest⟩ := bind_ok ran
    obtain ⟨-, -, rest⟩ := bind_ok rest
    obtain ⟨-, rfl⟩ := Prod.mk.inj (Except.ok.inj rest)
    have size := (alloc_ok ready.spaces.sized allocated).1.marked.size
    exact size ▸ ready.bound

theorem SegmentFits.congr {mem after : Bytes} {elf : Range} {phdr : Nat}
    (same : ∀ pointer offset count, Inside elf (wrap (pointer + offset)) count →
      member after pointer offset count = member mem pointer offset count)
    (fits : SegmentFits mem elf phdr) : SegmentFits after elf phdr := by
  have kept {offset : Nat} (among : offset ∈ [pOffset, pVaddr, pFilesz, pMemsz]) :=
    same phdr offset 8 (fits.members offset among)
  refine ⟨fits.members, ?_, ?_, ?_⟩
  · rw [kept (show pOffset ∈ _ by decide), kept (show pFilesz ∈ _ by decide)]
    exact fits.data
  · rw [kept (show pFilesz ∈ _ by decide), kept (show pMemsz ∈ _ by decide)]
    exact fits.size
  · rw [kept (show pVaddr ∈ _ by decide), kept (show pMemsz ∈ _ by decide)]
    exact fits.half

/-- Whether a module fits is a matter of its own bytes. -/
theorem ModuleFits.congr {vm : Vm} {mem after : Bytes} {elf : Range} (placed : Placed roots vm elf)
    (same : ∀ pointer offset count, Inside elf (wrap (pointer + offset)) count →
      member after pointer offset count = member mem pointer offset count)
    (fits : ModuleFits mem elf) : ModuleFits after elf := by
  have header {offset count : Nat} (some : count ≠ 0) (small : offset + count ≤ ePhnum + 2) :
      member after elf.base offset count = member mem elf.base offset count :=
    same _ _ _ ((header_inside placed _ _ some (Nat.le_trans small (by decide))).mpr (Nat.le_trans small fits.header))
  have place (index : Nat) : phdrAt after elf index = phdrAt mem elf index := by
    unfold phdrAt
    rw [header (by decide) (by decide), header (by decide) (by decide)]
  refine ⟨fits.header, fun index among => ?_⟩
  rw [header (by decide) (by decide)] at among
  obtain ⟨inside, segment⟩ := fits.segments index among
  rw [place]
  refine ⟨inside, fun load => (segment ?_).congr same⟩
  rwa [same _ _ _ inside] at load

/-- Loading touches only what it may exactly when the headers are sound. A load
that stops at a failed assertion has read only some of them. -/
theorem load_safe_iff {root : Nat} {kernel : Kernel} {elf : Range} {block bstack : HeapCall}
    (ready : Loadable roots root kernel.vm elf) :
    (ModuleFits kernel.vm.mem elf → Traced.Only (Access.Safe elf) (loadElfModule kernel elf block bstack)) ∧
    ∀ result, (loadElfModule kernel elf block bstack).outcome = .ok result →
      (Traced.Only (Access.Safe elf) (loadElfModule kernel elf block bstack) ↔ ModuleFits kernel.vm.mem elf) := by
  have placed := ready.placed
  have first : Inside elf (wrap (elf.base + ePhoff)) 8 ↔ ePhoff + 8 ≤ elf.length :=
    header_inside placed _ _ (by decide) (by decide)
  have last : Inside elf (wrap (elf.base + eEntry)) 8 ↔ eEntry + 8 ≤ elf.length :=
    header_inside placed _ _ (by decide) (by decide)
  -- the first header of the loop, in the machine with the new space
  have start {pml : Nat} {vm : Vm} (made : vmmSpaceCreate kernel.vm = .ok (pml, vm))
    (inside : ePhoff + 8 ≤ elf.length) :
      wrap (elf.base + member kernel.vm.mem elf.base ePhoff 8) = phdrAt vm.mem elf (2 ^ 16 - 2 ^ 16) := by
    obtain ⟨fresh, -, created, -, -, -⟩ := ready.created made
    rw [← placed.member_kept created.grows (first.mpr inside)]
    simp [phdrAt]
  have safe (fits : ModuleFits kernel.vm.mem elf) : Traced.Only (Access.Safe elf)
    (loadElfModule kernel elf block bstack) := by
    have inside : ePhoff + 8 ≤ elf.length := Nat.le_trans (by decide) fits.header
    unfold loadElfModule
    refine Traced.only_bind.mpr ⟨only_readMember.mpr (.inr (first.mpr inside)), ?_⟩
    rintro _ ⟨⟩
    refine Traced.only_bind.mpr ⟨Traced.only_silent _, ?_⟩
    rintro ⟨pml, vm⟩ made
    rw [start made inside]
    obtain ⟨fresh, rfl, created, loading, placed', bound⟩ := ready.created made
    have fits := fits.congr placed fun _ _ _ inside => placed.member_kept created.grows inside
    refine Traced.only_bind.mpr ⟨loading.segments_safe placed' bound (.inr rfl) fits (Nat.le_refl _), fun after _ => ?_⟩
    refine Traced.only_bind.mpr ⟨only_readMember.mpr (.inr (last.mpr (Nat.le_trans (by decide) fits.header))), ?_⟩
    exact fun _ _ => Traced.only_silent _
  refine ⟨safe, fun result ran => ⟨fun only => ?_, safe⟩⟩
  unfold loadElfModule at ran only
  obtain ⟨phoff, only⟩ := Traced.only_bind.mp only
  have inside := first.mp ((only_readMember.mp phoff).resolve_left (by decide))
  obtain ⟨-, only⟩ := Traced.only_bind.mp (only _ rfl)
  rw [Traced.outcome_bind, outcome_readMember, ok_bind, Traced.outcome_bind] at ran
  obtain ⟨⟨pml, vm⟩, made, ran⟩ := bind_ok ran
  have only := only (pml, vm) made
  rw [start made inside] at ran only
  obtain ⟨fresh, rfl, created, loading, placed', bound⟩ := ready.created made
  rw [Traced.outcome_bind] at ran
  obtain ⟨after, loop, -⟩ := bind_ok ran
  obtain ⟨header, segments, -⟩ := loading.segments_fit placed' bound (.inr rfl) (Nat.le_refl _) loop
    (Traced.only_bind.mp only).1
  have fits : ModuleFits vm.mem elf := ⟨header (by decide), fun index => segments index (by omega)⟩
  exact fits.congr placed' fun _ _ _ inside => (placed.member_kept created.grows inside).symm

/-- Modules in low memory are where the boot loader may put them. -/
theorem Working.loadable {mem : Bytes} {initial : Pmm} {root heap pages base length : Nat} {vm : Vm}
    (working : Working mem initial roots root heap pages vm) (low : base + length ≤ 2 ^ 20) :
    Loadable roots root vm ⟨mmapPhysToIo base, length⟩ := by
  have io : mmapPhysToIo base = base + mmapIoBase := by
    unfold mmapPhysToIo
    simp only [wrap, mmapIoBase]
    omega
  refine ⟨working.spaces, working.isRoot, working.own, ⟨?_, ?_, fun place inside => ?_⟩, working.ledger.small⟩
  · rw [io]
    exact Nat.le_add_left _ _
  · rw [io]
    simp only [mmapIoBase]
    omega
  · simp only [Module, phys_io base (by omega)] at inside
    exact (working.foreign place (by omega)).1

/-- The header of a module of 16 bytes is read beyond its end, and the load comes back. -/
theorem short_module_loads : ∃ roots root kernel elf block bstack, Loadable roots root kernel.vm elf ∧ elf.length = 16 ∧
    (∃ result, (loadElfModule kernel elf block bstack).outcome = .ok result) ∧
    ¬ Traced.Only (Access.Safe elf) (loadElfModule kernel elf block bstack) := by
  obtain ⟨initial, heap, root, vm, sched, -, -, working⟩ := gigabyte_boots fun _ => 0
  have ready : Loadable (· = root) root vm ⟨mmapPhysToIo 0x10000, 16⟩ := working.loadable (by decide)
  obtain ⟨fresh, stack, after, loads, -⟩ :=
    Working.loadEmpty (show Working _ initial _ root heap (19992 + 8) vm from working) sched
    (show Range.base ⟨mmapPhysToIo 0x10000, 16⟩ = mmapPhysToIo 0x10000 from rfl) (by decide)
      (Bytes.read_zero _ _) 0xe000 0x10000 (by decide) (by decide)
  refine ⟨_, root, ⟨sched, vm⟩, ⟨mmapPhysToIo 0x10000, 16⟩, _, _, ready, rfl, ⟨_, loads⟩, fun only => ?_⟩
  have first := (only_readMember.mp (Traced.only_bind.mp only).1).resolve_left (by decide)
  have inside := (header_inside ready.placed _ _ (by decide) (by decide)).mp first
  exact absurd inside (by decide)

end Navy
