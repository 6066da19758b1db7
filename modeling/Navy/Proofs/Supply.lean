import Navy.Proofs.SpaceCreation

/-! Progress. A free stretch ahead of the cursor is a supply of pages: every
allocation it has room for succeeds and takes its pages from the front. From it,
how many pages the mapping operations ask for, and so when they return. -/

namespace Navy.Paging

/-- `pages` free pages from `first` on, and nothing free between the cursor and them. -/
structure Stretch (pmm : Pmm) (first pages : Nat) : Prop where
  sized : pmm.Sized
  cursor : pmm.lastPage ≤ first
  used : ∀ page, pmm.lastPage ≤ page → page < first → ¬ pmm.Free page
  free : ∀ page, first ≤ page → page < first + pages → pmm.Free page
  bound : first + pages ≤ pmm.bitmapSize
  counted : pages ≤ pmm.usablePages
  word : pmm.usablePages < 2 ^ 64

theorem Stretch.take {pmm : Pmm} {first count rest amount : Nat} (stretch : Stretch pmm first (count + rest))
    (positive : 0 < amount) (enough : amount ≤ count * 4096) (tight : count * 4096 < amount + 4096) :
    ∃ after, pmmAlloc pmm amount = .ok (⟨first * 4096, count * 4096⟩, after) ∧ Stretch after (first + count) rest := by
  have sized := stretch.sized
  have bound := stretch.bound
  have counted := stretch.counted
  have cursor := stretch.cursor
  have free : ¬ pmm.Blocked amount pmm.bitmapSize first := by
    rintro ⟨page, after, _, near, taken⟩
    exact taken (stretch.free page after (by omega))
  rcases Pmm.pmmFindPages_unfold pmm amount sized with ⟨range, after, fit, taken, moved, ran⟩ | ⟨blocked, _⟩
  · have low := fit.low positive
    have length := fit.length
    have base := fit.base
    have enough' := fit.enough
    have tight' := fit.tight
    -- nothing before the stretch is free, and nothing before it was left out
    have atLeast : first ≤ range.base / 4096 := by
      by_contra before
      exact stretch.used (range.base / 4096) low (by omega) (fit.free _ (Range.mem_pages.mpr (by omega)))
    have atMost : range.base / 4096 ≤ first := by
      by_contra beyond
      obtain ⟨page, after, _, near, used⟩ := fit.lowest first cursor (by omega)
      exact used (stretch.free page after (by omega))
    have found : range = ⟨first * 4096, count * 4096⟩ := by
      cases range
      simp only at atLeast atMost length base enough' tight'
      simp only [Range.mk.injEq]
      omega
    subst found
    refine ⟨after, ?_, ?_⟩
    · simp only [pmmAlloc, check_true _ (show 0 < pmm.usablePages by omega), searchFuel]
      exact ran 0
    · have counter := taken.marked.counter
      have word := taken.marked.word stretch.word
      have small := stretch.word
      simp only [if_true, wrap] at counter moved
      have pages (index : Nat) : index * 4096 / 4096 = index := Nat.mul_div_cancel _ (by decide)
      simp only [pages] at counter moved
      refine ⟨by simpa only [Pmm.Sized, taken.marked.size] using sized, by omega, by omega, ?_, ?_, ?_, word⟩
      · intro page inside before
        rw [Pmm.Free, taken.marked.bits, if_neg (by omega)]
        exact stretch.free page (by omega) (by omega)
      · rw [taken.marked.size]
        omega
      · omega
  · exact absurd (blocked first cursor (by omega)) free

/-- At least `pages` pages can be had one allocation after the other. -/
def Supply (pmm : Pmm) (pages : Nat) : Prop := ∃ first, Stretch pmm first pages

theorem Supply.less {pmm : Pmm} {pages fewer : Nat} (supply : Supply pmm pages) (less : fewer ≤ pages) :
    Supply pmm fewer := by
  obtain ⟨first, stretch⟩ := supply
  have bound := stretch.bound
  have counted := stretch.counted
  exact ⟨first, stretch.sized, stretch.cursor, stretch.used, fun page low high => stretch.free page low (by omega),
    by omega, by omega, stretch.word⟩

theorem Supply.alloc {vm : Vm} {count rest amount : Nat} (supply : Supply vm.pmm (count + rest)) (owner : Owner)
    (positive : 0 < amount) (enough : amount ≤ count * 4096) (tight : count * 4096 < amount + 4096) :
    ∃ range after, vm.alloc owner amount = .ok (range, after) ∧ range.length = count * 4096 ∧
      Supply after.pmm rest := by
  obtain ⟨first, stretch⟩ := supply
  obtain ⟨pmm, ran, left⟩ := stretch.take positive enough tight
  refine ⟨⟨first * 4096, count * 4096⟩,
    { vm with pmm, owners := (owner, ⟨first * 4096, count * 4096⟩) :: vm.owners }, ?_, rfl, first + count, left⟩
  simp only [Vm.alloc, ran]
  rfl

variable {roots : Nat → Prop}

theorem Supply.one {vm : Vm} {pages : Nat} (supply : Supply vm.pmm (pages + 1)) (owner : Owner) :
    ∃ range after, vm.alloc owner pageSize = .ok (range, after) ∧ range.length = 4096 ∧ Supply after.pmm pages := by
  rw [Nat.add_comm] at supply
  exact supply.alloc owner (by decide) (by decide) (by decide)

/-- A table lookup on the way to a page takes one page at most. -/
theorem vmmGetPmlAlloc_returns {vm : Vm} (forest : Forest roots vm) {root table index pages : Nat} {path : List Nat}
    (isRoot : roots root) (short : path.length < 3) (reached : follow vm.mem root path = some table)
    (inside : index < 512) (supply : Supply vm.pmm (pages + 1)) :
    ∃ range after, vmmGetPmlAlloc vm (mmapPhysToIo table) index true = .ok (range, after) ∧ Supply after.pmm pages := by
  obtain ⟨aligned, small⟩ := forest.table_aligned ⟨root, path, isRoot, by omega, reached⟩
  simp only [vmmGetPmlAlloc, pmlEntry_eq aligned small inside]
  split
  · exact ⟨_, vm, rfl, supply.less (Nat.le_succ pages)⟩
  · obtain ⟨range, middle, ran, length, left⟩ := supply.one .table
    have positive : 0 < range.length := by omega
    simp only [ran, Outcome.ok_bind, check_true _ positive]
    exact ⟨_, _, rfl, left⟩

private theorem vmmGetPmlAlloc_present {vm : Vm} (forest : Forest roots vm) {root table index next : Nat}
    {path : List Nat} (isRoot : roots root) (short : path.length < 3)
    (reached : follow vm.mem root path = some table) (inside : index < 512)
    (found : child (tableEntry vm.mem table index) = some next) :
    vmmGetPmlAlloc vm (mmapPhysToIo table) index true = .ok (⟨mmapPhysToIo next, pageSize⟩, vm) := by
  obtain ⟨aligned, small⟩ := forest.table_aligned ⟨root, path, isRoot, by omega, reached⟩
  unfold child at found
  split at found
  next linked =>
    obtain rfl := Option.some.inj found
    simp only [vmmGetPmlAlloc, pmlEntry_eq aligned small inside, linked, if_true]
    rfl
  next => cases found

/-- One page needs three tables at most. -/
theorem vmmMapPage_returns {vm : Vm} (forest : Forest roots vm) {root pages : Nat} (isRoot : roots root)
    (virt phys : Nat) (isUser : Bool) (supply : Supply vm.pmm (pages + 3)) :
    ∃ after, vmmMapPage vm (mmapPhysToIo root) virt phys isUser = .ok after ∧ Supply after.pmm pages := by
  obtain ⟨pml3Range, vm3, first, supply⟩ := vmmGetPmlAlloc_returns forest isRoot
    (show ([] : List Nat).length < 3 by simp) rfl (pmlxGetIndex_lt virt 3) supply
  obtain ⟨pml3, base, step3⟩ := vmmGetPmlAlloc_ok forest isRoot (show ([] : List Nat).length < 3 by simp) rfl
    (pmlxGetIndex_lt virt 3) first
  obtain ⟨pml2Range, vm2, second, supply⟩ := vmmGetPmlAlloc_returns step3.forest isRoot (by simp) step3.reached
    (pmlxGetIndex_lt virt 2) supply
  obtain ⟨pml2, base', step2⟩ := vmmGetPmlAlloc_ok step3.forest isRoot (by simp) step3.reached
    (pmlxGetIndex_lt virt 2) second
  obtain ⟨pml1Range, vm1, third, supply⟩ := vmmGetPmlAlloc_returns step2.forest isRoot (by simp) step2.reached
    (pmlxGetIndex_lt virt 1) supply
  rw [← base] at second
  rw [← base'] at third
  simp only [vmmMapPage, pml4GetIndex, pml3GetIndex, pml2GetIndex, first, second, third, Outcome.ok_bind]
  exact ⟨_, rfl, supply⟩

/-- A page whose tables exist is mapped by one store. -/
theorem vmmMapPage_stores {vm : Vm} (forest : Forest roots vm) {root virt : Nat} (isRoot : roots root)
    (phys : Nat) (isUser : Bool) (tables : (follow vm.mem root (pathOf virt)).isSome) :
    ∃ mem, vmmMapPage vm (mmapPhysToIo root) virt phys isUser = .ok { vm with mem } := by
  obtain ⟨pml3, pml2, pml1, links⟩ := follow_links tables
  have first := vmmGetPmlAlloc_present forest isRoot (show ([] : List Nat).length < 3 by simp) rfl
    (pmlxGetIndex_lt virt 3) links.top
  have second := vmmGetPmlAlloc_present forest isRoot (by simp) links.reached3 (pmlxGetIndex_lt virt 2) links.middle
  have third := vmmGetPmlAlloc_present forest isRoot (by simp) links.reached2 (pmlxGetIndex_lt virt 1) links.bottom
  simp only [vmmMapPage, pml4GetIndex, pml3GetIndex, pml2GetIndex, first, second, third, Outcome.ok_bind]
  exact ⟨_, rfl⟩

theorem vmmMapRange_page (vm : Vm) (pml : Nat) {virt phys : Nat} (isUser : Bool)
    (virtual : alignDown virt pageSize = virt) (physical : alignDown phys pageSize = phys) :
    vmmMapRange vm pml ⟨virt, 4096⟩ ⟨phys, 4096⟩ isUser = vmmMapPage vm pml virt phys isUser := by
  have small {address : Nat} (aligned : alignDown address pageSize = address) : wrap address = address := by
    rw [alignDown_page] at aligned
    simp only [wrap] at aligned ⊢
    omega
  unfold vmmMapRange
  rw [check_true _ rfl, Outcome.ok_bind]
  dsimp only
  have once : List.range (4096 / pageSize) = [0] := by decide
  rw [once, List.foldlM_cons, Nat.zero_mul, Nat.zero_add, Nat.zero_add, virtual, physical, small virtual,
    small physical]
  exact bind_pure _

theorem vmmMapPage_present {vm : Vm} (forest : Forest roots vm) {root virt pages : Nat} (isRoot : roots root)
    (phys : Nat) (isUser : Bool) (tables : (follow vm.mem root (pathOf virt)).isSome) (supply : Supply vm.pmm pages) :
    ∃ after, vmmMapPage vm (mmapPhysToIo root) virt phys isUser = .ok after ∧ Supply after.pmm pages := by
  obtain ⟨mem, ran⟩ := vmmMapPage_stores forest isRoot phys isUser tables
  exact ⟨_, ran, supply⟩

private theorem path_congr {first second : Nat} (small : first < 2 ^ 64) (small' : second < 2 ^ 64)
    (group : first / 2 ^ 21 = second / 2 ^ 21) : pathOf first = pathOf second := by
  simp only [pathOf, pml4GetIndex, pml3GetIndex, pml2GetIndex, List.cons.injEq, and_true, pmlxGetIndex_eq, wrap]
  omega

/-- The runs of 512 pages, each with a leaf table of its own, that `count` pages from `first` on meet. -/
def leafTables (first count : Nat) : Nat := if count = 0 then 0 else (first + count - 1) / 512 - first / 512 + 1

private theorem leafTables_pos {first count : Nat} (some : count ≠ 0) :
    leafTables first count = (first + count - 1) / 512 - first / 512 + 1 := if_neg some

theorem vmmMapRange_returns {vm : Vm} {root pages : Nat} (base : Nat) {virt phys : Range} {isUser : Bool}
    (spaces : Spaces roots vm) (isRoot : roots root) (aligned : base % 4096 = 0) (equal : phys.length = virt.length)
    (bound : base + virt.length / 4096 * 4096 ≤ 2 ^ 64)
    (address : ∀ index, index < virt.length / 4096 → wrap (index * pageSize + alignDown virt.base pageSize) =
      base + index * 4096)
    (canonical : ∀ index, index < virt.length / 4096 → Canonical (base + index * 4096))
    (touchable : ∀ index, index < virt.length / 4096 → Touchable roots vm root (base + index * 4096))
    (supply : Supply vm.pmm (pages + 3 * leafTables (base / 4096) (virt.length / 4096))) :
    ∃ after, vmmMapRange vm (mmapPhysToIo root) virt phys isUser = .ok after ∧ Supply after.pmm pages := by
  simp only [vmmMapRange, check_true _ equal, Outcome.ok_bind]
  refine (Outcome.foldlM_range_returns (fun turn middle => Spaces roots middle ∧ Grows roots vm middle ∧
    Supply middle.pmm (pages + 3 * (leafTables (base / 4096) (virt.length / 4096) - leafTables (base / 4096) turn)) ∧
    (turn ≠ 0 → (follow middle.mem root (pathOf (base + (turn - 1) * 4096))).isSome)) ?_
    ⟨spaces, .refl _ _, supply, fun start => absurd rfl start⟩).imp fun after done =>
      ⟨done.1, done.2.2.2.1.less (Nat.le_add_right _ _)⟩
  rintro turn middle inside ⟨spaces, grows, supply, previous⟩
  simp only [pageSize] at inside
  have here := (touchable turn inside).grow grows isRoot
  rw [address turn inside]
  -- a page continues a run of its predecessor or begins a new one
  have mapped : ∃ after, vmmMapPage middle (mmapPhysToIo root) (base + turn * 4096)
      (wrap (turn * pageSize + alignDown phys.base pageSize)) isUser = .ok after ∧
      Supply after.pmm (pages + 3 * (leafTables (base / 4096) (virt.length / 4096) - leafTables (base / 4096)
        (turn + 1))) := by
    by_cases continues : turn ≠ 0 ∧ (base / 4096 + turn - 1) / 512 = (base / 4096 + turn) / 512
    · have same : pathOf (base + turn * 4096) = pathOf (base + (turn - 1) * 4096) := by
        apply path_congr <;> omega
      have counted : leafTables (base / 4096) (turn + 1) = leafTables (base / 4096) turn := by
        rw [leafTables_pos (Nat.succ_ne_zero turn), leafTables_pos continues.1]
        omega
      have tables := previous continues.1
      rw [← same] at tables
      rw [counted]
      exact vmmMapPage_present spaces.toForest isRoot _ isUser tables supply
    · have counted : leafTables (base / 4096) (turn + 1) = leafTables (base / 4096) turn + 1 ∧
          leafTables (base / 4096) (turn + 1) ≤ leafTables (base / 4096) (virt.length / 4096) := by
        rw [leafTables_pos (Nat.succ_ne_zero turn), leafTables_pos (show virt.length / 4096 ≠ 0 by omega)]
        by_cases start : turn = 0
        · simp only [leafTables, start, if_true]
          omega
        · rw [leafTables_pos start]
          omega
      refine vmmMapPage_returns spaces.toForest isRoot _ _ isUser (supply.less ?_)
      omega
  obtain ⟨after, ran, left⟩ := mapped
  have step := vmmMapPage_ok spaces.toForest isRoot ran
  have updated := step.updated spaces isRoot (canonical turn inside) here
  obtain ⟨table, reached⟩ := step.reached
  refine ⟨after, ran, updated.spaces, grows.trans updated.grows, left, fun _ => ?_⟩
  rw [Nat.add_sub_cancel, reached]
  rfl

/-- The pages that page tables take when a stretch of memory enters the direct map. -/
@[irreducible] def directTables (start length : Nat) : Nat :=
  3 * leafTables ((mmapIoBase + start) / 4096) (length / 4096)

/-- Mapping a stretch of memory into the direct map of the only space. -/
theorem direct_returns {vm : Vm} {kernel pages : Nat} (start length : Nat) (isUser : Bool)
    (spaces : Spaces (· = kernel) vm) (own : KernelSpace kernel vm) (aligned : start % 4096 = 0)
    (small : start + length < 2 ^ 46 + 8192) (supply : Supply vm.pmm (pages + directTables start length)) :
    ∃ after, vmmMapRange vm vm.kernelPml4 ⟨mmapPhysToIo start, length⟩ ⟨start, length⟩ isUser = .ok after ∧
      Supply after.pmm pages ∧ Spaces (· = kernel) after ∧ KernelSpace kernel after ∧ Grows (· = kernel) vm after := by
  unfold directTables at supply
  have place {index : Nat} (inside : index < length / 4096) :
      wrap (start + index * 4096 + mmapIoBase) = mmapIoBase + start + index * 4096 := by
    simp only [wrap, mmapIoBase]
    omega
  have direct {index : Nat} (inside : index < length / 4096) :=
    direct_place (show start + index * 4096 < 2 ^ 46 + 8192 by omega)
  have base : (mmapIoBase + start) % 4096 = 0 ∧ mmapIoBase + start + length / 4096 * 4096 ≤ 2 ^ 64 := by
    simp only [mmapIoBase]
    omega
  have returns : ∃ after, vmmMapRange vm (mmapPhysToIo kernel) ⟨mmapPhysToIo start, length⟩ ⟨start, length⟩ isUser =
      .ok after ∧ Supply after.pmm pages := by
    refine vmmMapRange_returns (mmapIoBase + start) spaces rfl base.1 rfl base.2 (fun index inside => ?_)
      (fun index inside => ?_) (fun index inside => .inr (.inr fun _ same => same)) supply
    · rw [direct_address aligned, place inside]
    · rw [← place inside]
      exact (direct inside).1
  rw [← own.pml4] at returns
  obtain ⟨after, ran, left⟩ := returns
  exact ⟨after, ran, left, vmmMapRange_kernel spaces own ran (fun index => wrap (start + index * 4096 + mmapIoBase))
    (fun index _ => direct_address aligned index) (fun index inside => direct inside)⟩

private theorem vmmInitEntry_plain (vm : Vm) {mmap : MmapEntry} (plain : mmap.type ≠ stivale2MmapKernelAndModules) :
    vmmInitEntry vm mmap = vmmMapRange vm vm.kernelPml4
      ⟨mmapPhysToIo (initRange mmap).base, (initRange mmap).length⟩ ⟨(initRange mmap).base,
        (initRange mmap).length⟩ false := by
  unfold vmmInitEntry initRange
  dsimp only
  rw [if_neg plain]
  exact Outcome.ok_bind vm _

/-- Boot of a machine whose memory map has a single entry, not one of the kernel's. -/
theorem vmmInit_returns {mem : Bytes} {pmm : Pmm} {handover : Handover} {mmap : MmapEntry} {pages : Nat}
    (single : handover.mmap = [mmap]) (plain : mmap.type ≠ stivale2MmapKernelAndModules)
    (addressable : Addressable mmap) (supply : Supply pmm
      (pages + directTables (initRange mmap).base (initRange mmap).length + directTables 0 0xffffffff + 1)) :
      ∃ vm, vmmInit mem pmm handover = .ok vm ∧ Supply vm.pmm pages := by
  have sized : pmm.Sized := supply.choose_spec.sized
  obtain ⟨range, root, allocated, length, supply⟩ := (show Supply (Vm.mk mem pmm 0 []).pmm _ from supply).one .root
  have positive : 0 < range.length := by omega
  obtain ⟨spaces, own⟩ := vmmInit_root sized allocated positive
  have first := direct_returns 0 0xffffffff false spaces own (by simp) (by omega) supply
  dsimp only at first
  obtain ⟨low, mapped, supply, spaces, own, -⟩ := first
  obtain ⟨base, extent⟩ := initRange_small addressable
  obtain ⟨vm, ran, supply, _⟩ := direct_returns _ _ false spaces own base extent supply
  refine ⟨vm, ?_, supply⟩
  unfold vmmInit
  rw [allocated, Outcome.ok_bind]
  dsimp only
  rw [check_true _ positive, Outcome.ok_bind, mapped, Outcome.ok_bind, single, List.foldlM_cons]
  rw [vmmInitEntry_plain low plain, ran]
  rfl

theorem vmmSpaceCreate_returns {vm : Vm} {pages : Nat} (supply : Supply vm.pmm (pages + 1)) :
    ∃ pml after, vmmSpaceCreate vm = .ok (pml, after) ∧ Supply after.pmm pages := by
  obtain ⟨range, middle, ran, length, left⟩ := supply.one .root
  have positive : 0 < range.length := by omega
  unfold vmmSpaceCreate
  rw [ran, Outcome.ok_bind]
  dsimp only
  rw [check_true _ positive, Outcome.ok_bind]
  exact ⟨_, _, rfl, left⟩

/-- A machine with one gigabyte of memory, usable from the first megabyte on. -/
def gigabyte : Handover where
  memoryUsable := 0x3ff00000
  usablePages := 0x3ff00
  rsdt := 0
  framebuffer := ⟨0, 0, 0, 0⟩
  mmap := [⟨⟨0x100000, 0x3ff00000⟩, stivale2MmapUsable, true⟩]
  modules := []

/-- What is left of the memory map once the bitmap has its place in it. -/
def gigabyteEntry : MmapEntry := ⟨⟨0x108000, 0x3fef8000⟩, stivale2MmapUsable, true⟩

private def gigabyteStart : Pmm := ⟨Bytes.fill (fun _ => 0) 0 32768 0xff, 32768, 0, 0⟩

private theorem gigabyte_steps {freed pmm : Pmm} (first : pmmRangeUnused gigabyteStart gigabyteEntry.range = .ok freed)
    (last : pmmRangeUsed freed ⟨0x100000, 32768⟩ = .ok pmm) :
    pmmInit gigabyte = .ok (pmm, { gigabyte with mmap := [gigabyteEntry] }) := by
  have entry : gigabyte.mmap.getLast? = some ⟨⟨0x100000, 0x3ff00000⟩, stivale2MmapUsable, true⟩ := rfl
  have size : wrap (0x100000 + 0x3ff00000) / (pageSize * 8) = 32768 := by decide
  have placed : placeBitmap 32768 0 gigabyte.mmap = (mmapPhysToIo 0x100000, [gigabyteEntry]) := by decide +kernel
  have nonzero : mmapPhysToIo 0x100000 ≠ 0 := by decide +kernel
  have aligned : Range.mk (alignDown gigabyteEntry.range.base pageSize) (alignUp gigabyteEntry.range.length pageSize) =
      gigabyteEntry.range := by decide +kernel
  unfold pmmInit
  rw [entry]
  dsimp only
  rw [Outcome.ok_bind]
  dsimp only
  rw [size, placed]
  dsimp only
  rw [check_true _ nonzero, Outcome.ok_bind]
  rw [List.foldlM_cons, aligned, if_pos (show gigabyteEntry.isFree = true from rfl)]
  unfold gigabyteStart at first
  rw [first, Outcome.ok_bind, List.foldlM_nil, phys_io _ (by decide)]
  show (pmmRangeUsed freed ⟨0x100000, 32768⟩ >>= _) = _
  rw [last]
  rfl

theorem gigabyte_pmm : ∃ pmm, pmmInit gigabyte = .ok (pmm, { gigabyte with mmap := [gigabyteEntry] }) ∧
    Supply pmm 32504 := by
  have start : gigabyteStart.bitmapSize = 32768 := rfl
  obtain ⟨freed, first, cursor, (clear : Pmm.Rewritten false 264 261880 gigabyteStart freed)⟩ :=
    Pmm.pmmRangeUnused_rewrites gigabyteStart gigabyteEntry.range (by rw [start]; decide) (by rw [start]; decide)
  obtain ⟨pmm, last, cursor', (set : Pmm.Rewritten true 256 8 freed pmm)⟩ :=
    Pmm.pmmRangeUsed_rewrites freed ⟨0x100000, 32768⟩ (by rw [clear.size, start]; decide)
      (by rw [clear.size, start]; decide)
  have size : pmm.bitmapSize = 32768 := set.size.trans clear.size
  have low (page : Nat) (before : page < 264) : gigabyteStart.bitmap.bit page = true := by
    have ones : ∀ place < 8, (0xff#8).getLsbD place = true := by decide
    rw [Bytes.bit, gigabyteStart]
    dsimp only
    rw [Bytes.fill_inside _ _ _ _ _ (Nat.zero_le _) (by omega)]
    exact ones _ (Nat.mod_lt _ (by decide))
  have counter : pmm.usablePages = 261872 := by
    have freed' := clear.counter
    have used := set.counter
    have word := set.word (clear.word (by decide))
    simp only [wrap, gigabyteStart, Bool.false_eq_true, if_false, if_true] at freed' used
    omega
  refine ⟨pmm, gigabyte_steps first last, 264, ?_, ?_, ?_, ?_, ?_, ?_, ?_⟩
  · rw [Pmm.Sized, size]
    decide
  · rw [cursor', cursor]
    decide
  · intro page _ before
    rw [Pmm.Free, set.bits, clear.bits]
    by_cases window : 256 ≤ page ∧ page < 256 + 8
    · simp [window]
    · rw [if_neg window, if_neg (by omega), low page before]
      decide
  · intro page low high
    rw [Pmm.Free, set.bits, clear.bits, if_neg (by omega), if_pos (by omega)]
  · rw [size]
  · rw [counter]
    decide
  · rw [counter]
    decide

theorem gigabyte_vm (mem : Bytes) : ∃ pmm vm, pmmInit gigabyte = .ok (pmm, { gigabyte with mmap := [gigabyteEntry] }) ∧
    pmm.Sized ∧ vmmInit mem pmm { gigabyte with mmap := [gigabyteEntry] } = .ok vm ∧ Supply vm.pmm 24000 := by
  obtain ⟨pmm, placed, supply⟩ := gigabyte_pmm
  have enough : 24000 + directTables (initRange gigabyteEntry).base (initRange gigabyteEntry).length +
      directTables 0 0xffffffff + 1 ≤ 32504 := by decide +kernel
  obtain ⟨vm, ran, left⟩ := @vmmInit_returns mem pmm { gigabyte with mmap := [gigabyteEntry] } gigabyteEntry _
    rfl (by decide) (show 0x108000 + 0x3fef8000 ≤ 2 ^ 46 by decide) (supply.less enough)
  exact ⟨pmm, vm, placed, supply.choose_spec.sized, ran, left⟩

end Navy.Paging
