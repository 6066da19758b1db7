import Navy.Proofs.Boot

/-! A machine to run on: one gigabyte, booted, with a heap of 64 pages and
memory below the first megabyte as the boot loader left it. -/

namespace Navy
open Paging Outcome

variable {roots : Nat → Prop}

structure Working (mem : Bytes) (initial : Pmm) (roots : Nat → Prop) (root heap pages : Nat) (vm : Vm) : Prop where
  spaces : Spaces roots vm
  isRoot : roots root
  own : KernelSpace root vm
  supply : Supply vm.pmm pages
  ledger : Ledger initial vm
  foreign : ∀ place, place < 2 ^ 20 → Reserved roots vm (place / 4096) ∧ vm.mem place = mem place
  owned : ∀ place, heap ≤ place → place < heap + 2 ^ 18 → heapOwned vm place = true ∧ Reserved roots vm (place / 4096)
  above : 2 ^ 20 ≤ heap
  below : heap + 2 ^ 18 ≤ 2 ^ 46

theorem kmalloc_returns {kernel : Kernel} {count place : Nat} (small : place < 2 ^ 64)
    (owned : ∀ offset, offset < count → heapOwned kernel.vm (place + offset) = true) :
    kmalloc kernel count ⟨[], mmapPhysToIo place⟩ = .ok (mmapPhysToIo place, kernel) := by
  have inside : ((List.range count).all fun offset =>
    heapOwned kernel.vm (mmapIoToPhys (mmapPhysToIo place) + offset)) = true := by
    rw [phys_io _ small]
    exact List.all_eq_true.mpr fun offset member => owned offset (List.mem_range.mp member)
  unfold kmalloc liballocMalloc
  change (check _ _ >>= _) = _
  rw [check_true _ inside]
  rfl

theorem heapOwned_grows {vm after : Vm} {added : List (Owner × Range)}
    (owners : after.owners = added ++ vm.owners) {place : Nat} (owned : heapOwned vm place = true) :
    heapOwned after place = true := by
  unfold heapOwned at owned ⊢
  rw [owners, List.any_append, owned, Bool.or_true]

namespace Working

variable {mem : Bytes} {initial : Pmm} {root heap pages : Nat} {vm after : Vm}

theorem grow (working : Working mem initial roots root heap pages vm) (spaces : Spaces roots after)
    (grows : Grows roots vm after) {fewer : Nat} (supply : Supply after.pmm fewer) {kind : Owner → Prop}
    (enters : Enters kind vm after) (hole : tableEntry after.mem root 255 = tableEntry vm.mem root 255) :
    Working mem initial roots root heap fewer after := by
  have ledger := enters.ledger working.ledger
  obtain ⟨added, entered⟩ := enters
  refine ⟨spaces, working.isRoot, ⟨grows.kernel.trans working.own.pml4, hole.trans working.own.hole⟩, supply, ledger,
    fun place low => ?_, fun place low high => ?_, working.above, working.below⟩
  · obtain ⟨reserved, same⟩ := working.foreign place low
    exact ⟨grows.reserved reserved, (grows.reserved_byte reserved).trans same⟩
  · obtain ⟨owned, reserved⟩ := working.owned place low high
    exact ⟨heapOwned_grows entered.owners owned, grows.reserved reserved⟩

/-- Writing to frames held for something else than a table, above the first megabyte. -/
theorem fill (working : Working mem initial roots root heap pages vm) {written : Nat → Prop}
    (reserved : ∀ page, written page → Reserved roots vm page) (high : ∀ page, written page → 256 ≤ page) {mem' : Bytes}
    (same : ∀ place, ¬ written (place / 4096) → mem' place = vm.mem place) :
    Working mem initial roots root heap pages { vm with mem := mem' } := by
  obtain ⟨spaces, tables, kept, -⟩ := working.spaces.overwritten reserved same
  have still {page : Nat} (reserved : Reserved roots vm page) : Reserved roots { vm with mem := mem' } page :=
    ⟨reserved.held, fun table isTable => reserved.apart table ((tables table).mp isTable)⟩
  refine ⟨spaces, working.isRoot, ⟨working.own.pml4, ?_⟩, working.supply,
    ⟨working.ledger.bound, working.ledger.accounts⟩, fun place low => ?_, fun place low high => ?_, working.above,
      working.below⟩
  · rw [kept root ⟨root, [], working.isRoot, by simp, rfl⟩]
    exact working.own.hole
  · obtain ⟨reserved, old⟩ := working.foreign place low
    exact ⟨still reserved, (same place fun here => absurd (high _ here) (by omega)).trans old⟩
  · obtain ⟨owned, reserved⟩ := working.owned place low high
    exact ⟨owned, still reserved⟩

theorem write (working : Working mem initial roots root heap pages vm) {mem' : Bytes}
    (same : ∀ place, ¬ (heap ≤ place ∧ place < heap + 2 ^ 18) → mem' place = vm.mem place) :
    Working mem initial roots root heap pages { vm with mem := mem' } := by
  have above := working.above
  have written (page : Nat) (here : ∃ place, place / 4096 = page ∧ heap ≤ place ∧ place < heap + 2 ^ 18) :
      Reserved roots vm page ∧ 256 ≤ page := by
    obtain ⟨place, rfl, low, high⟩ := here
    exact ⟨(working.owned place low high).2, by omega⟩
  exact working.fill (fun page here => (written page here).1) (fun page here => (written page here).2)
    fun place outside => same place fun here => outside ⟨place, rfl, here⟩

theorem kmalloc (working : Working mem initial roots root heap pages vm) (sched : Sched) (count offset : Nat)
    (inside : offset + count ≤ 2 ^ 18) :
    Navy.kmalloc ⟨sched, vm⟩ count ⟨[], mmapPhysToIo (heap + offset)⟩ = .ok
      (mmapPhysToIo (heap + offset), ⟨sched, vm⟩) := by
  have below := working.below
  apply kmalloc_returns (by omega)
  intro place among
  exact (working.owned _ (by omega) (by omega)).1

theorem kcalloc (working : Working mem initial roots root heap pages vm) (sched : Sched) (count offset : Nat)
    (inside : offset + count ≤ 2 ^ 18) :
    ∃ after, Navy.kcalloc ⟨sched, vm⟩ count ⟨[], mmapPhysToIo (heap + offset)⟩ = .ok
      (mmapPhysToIo (heap + offset), ⟨sched, after⟩) ∧
      Working mem initial roots root heap pages after := by
  have below := working.below
  have called := working.kmalloc sched count offset inside
  unfold Navy.kmalloc at called
  refine ⟨{ vm with mem := memset vm.mem (mmapPhysToIo (heap + offset)) 0 count }, ?_,
    working.write fun place outside => ?_⟩
  · unfold Navy.kcalloc
    rw [called]
    rfl
  · unfold memset
    rw [phys_io _ (by omega)]
    exact Bytes.fill_apart _ _ _ _ _ (by omega)

theorem alloc (working : Working mem initial roots root heap pages vm) (owner : Owner) {count rest amount : Nat}
    (room : pages = count + rest) (positive : 0 < amount) (enough : amount ≤ count * 4096)
    (tight : count * 4096 < amount + 4096) :
    ∃ range after, vm.alloc owner amount = .ok (range, after) ∧ range.length = count * 4096 ∧
      (∀ page ∈ range.pages, Available vm.pmm page ∧ Reserved roots after page) ∧
        after.owners = (owner, range) :: vm.owners ∧
      Working mem initial roots root heap rest after := by
  subst room
  obtain ⟨range, after, ran, length, left⟩ := working.supply.alloc owner positive enough tight
  obtain ⟨spaces, grows, same, fresh⟩ := working.spaces.allocated ran
  have entered := alloc_entered ran
  refine ⟨range, after, ran, length, fresh, entered.owners, working.grow spaces grows left ⟨_, entered⟩ ?_⟩
  rw [same]

/-- Mapping pages of the user half of a space other than the kernel's. -/
theorem map (working : Working mem initial roots root heap pages vm) {space : Nat} (isSpace : roots space)
    (other : space ≠ root) (isUser : Bool) (base : Nat) {virt phys : Range} {rest : Nat}
    (aligned : base % 4096 = 0) (equal : phys.length = virt.length)
    (bound : base + virt.length / 4096 * 4096 ≤ 2 ^ 47)
    (address : ∀ index, index < virt.length / 4096 → wrap (index * pageSize + alignDown virt.base pageSize) =
      base + index * 4096)
    (room : pages = rest + 3 * leafTables (base / 4096) (virt.length / 4096)) :
    ∃ after, vmmMapRange vm (mmapPhysToIo space) virt phys isUser = .ok after ∧
      Working mem initial roots root heap rest after := by
  subst room
  have half (index : Nat) (inside : index < virt.length / 4096) : UserHalf (base + index * 4096) := by
    unfold UserHalf
    omega
  obtain ⟨after, ran, left⟩ := vmmMapRange_returns base working.spaces isSpace aligned equal (by omega) address
    (fun index inside => .inl (half index inside)) (fun index inside => .inl (half index inside)) working.supply
  have touched := vmmMapRange_touched working.spaces isSpace ran address (fun index inside => .inl (half index inside))
    (fun index inside => .inl (half index inside))
  have slot := touched.slots root 255 working.isRoot fun same => absurd same.symm other
  exact ⟨after, ran, working.grow touched.spaces touched.grows left (vmmMapRange_enters ran) slot⟩

theorem create (working : Working mem initial roots root heap (pages + 1) vm) :
    ∃ fresh after, vmmSpaceCreate vm = .ok (mmapPhysToIo fresh, after) ∧ fresh ≠ root ∧ ¬ roots fresh ∧
      Working mem initial (fun other => roots other ∨ other = fresh) root heap pages after := by
  obtain ⟨pml, after, ran, left⟩ := vmmSpaceCreate_returns working.supply
  obtain ⟨fresh, rfl, created⟩ := vmmSpaceCreate_ok working.spaces working.isRoot working.own ran
  obtain ⟨range, -, -, entered, -⟩ := vmmSpaceCreate_entered ran
  have new : ¬ roots fresh := fun old => created.unreached ⟨fresh, [], old, by simp, rfl⟩
  have apart : fresh ≠ root := by
    rintro rfl
    exact new working.isRoot
  refine ⟨fresh, after, ran, apart, new, created.spaces, .inl working.isRoot, created.kernel, left,
    entered.ledger working.ledger, fun place low => ?_, fun place low high => ?_, working.above, working.below⟩
  · obtain ⟨reserved, same⟩ := working.foreign place low
    exact ⟨created.reserved reserved, (created.grows.reserved_byte reserved).trans same⟩
  · obtain ⟨owned, reserved⟩ := working.owned place low high
    exact ⟨heapOwned_grows entered.owners owned, created.reserved reserved⟩

/-- `task_init` with blocks that the heap has already. -/
theorem taskInit (working : Working mem initial roots root heap (pages + 7) vm) (sched : Sched) {space : Nat}
    (isSpace : roots space) (other : space ≠ root) (rip : Nat) {block bstack : Nat}
    (blockInside : block + processSize ≤ 2 ^ 18) (bstackInside : bstack + kernelStackSize ≤ 2 ^ 18) :
    ∃ stack after, Navy.taskInit ⟨sched, vm⟩
      (mmapPhysToIo space) rip ⟨[], mmapPhysToIo (heap + block)⟩ ⟨[], mmapPhysToIo (heap + bstack)⟩ =
        .ok (newTask (mmapPhysToIo space) rip (mmapPhysToIo (heap + bstack)) stack, ⟨sched, after⟩) ∧
      Working mem initial roots root heap pages after := by
  obtain ⟨zeroed, first, working⟩ := working.kcalloc sched _ _ blockInside
  have second := working.kmalloc sched _ _ bstackInside
  obtain ⟨stack, given, allocated, length, -, -, working⟩ := working.alloc (.stack (mmapPhysToIo space))
    (show pages + 7 = 4 + (pages + 3) by omega) (show 0 < kernelStackSize by decide) (by decide) (by decide)
  have some : stack.length ≠ 0 := by omega
  obtain ⟨mapped, mapping, working⟩ := working.map isSpace other true userStackBase
    (by decide) (show stack.length = Range.length ⟨userStackBase, kernelStackSize⟩ from length) (by decide)
      (by decide) rfl
  refine ⟨stack, mapped, ?_, working⟩
  unfold Navy.taskInit
  rw [first, ok_bind]
  dsimp only
  rw [second, ok_bind]
  dsimp only
  rw [allocated, ok_bind]
  dsimp only
  rw [check_true _ some, ok_bind, mapping]
  rfl

end Working

theorem loadSegments_none {elf : Range} {pml fuel phdr : Nat} {vm : Vm} (none : member vm.mem elf.base ePhnum 2 = 0) :
    (loadSegments elf pml fuel phdr vm).outcome = .ok vm := by
  cases fuel with
  | zero => rfl
  | succ fuel =>
    rw [loadSegments_succ, Traced.outcome_bind, outcome_readMember, ok_bind, none, if_neg (Nat.not_lt_zero _)]
    rfl

/-- Memory below the first megabyte reads as at boot. -/
theorem Working.member {mem : Bytes} {initial : Pmm} {root heap pages : Nat} {vm : Vm}
    (working : Working mem initial roots root heap pages vm) {base offset count : Nat}
    (low : base + offset + count ≤ 2 ^ 20) :
    Navy.member vm.mem (mmapPhysToIo base) offset count = mem.read (base + offset) count := by
  unfold Navy.member
  rw [io_offset, wrap_of_lt (by omega)]
  exact Bytes.read_congr fun place _ high => (working.foreign place (by omega)).2

theorem Working.loadEmpty {mem : Bytes} {initial : Pmm} {root heap pages : Nat} {vm : Vm}
    (working : Working mem initial roots root heap (pages + 8) vm) (sched : Sched) {elf : Range} {base : Nat}
    (placed : elf.base = mmapPhysToIo base) (low : base + 64 ≤ 2 ^ 20) (none : mem.read (base + ePhnum) 2 = 0)
    (block bstack : Nat) (blockInside : block + processSize ≤ 2 ^ 18)
    (bstackInside : bstack + kernelStackSize ≤ 2 ^ 18) :
    ∃ fresh stack after, (loadElfModule ⟨sched, vm⟩ elf ⟨[], mmapPhysToIo (heap + block)⟩ ⟨[],
      mmapPhysToIo (heap + bstack)⟩).outcome =
        .ok (newTask (mmapPhysToIo fresh) (mem.read (base + eEntry) 8) (mmapPhysToIo (heap + bstack)) stack,
          ⟨sched, after⟩) ∧
      Working mem initial (fun other => roots other ∨ other = fresh) root heap pages after := by
  obtain ⟨fresh, made, created, apart, -, working⟩ := working.create
  have phnum := working.member (show base + ePhnum + 2 ≤ 2 ^ 20 by simp only [ePhnum]; omega)
  have entry := working.member (show base + eEntry + 8 ≤ 2 ^ 20 by simp only [eEntry]; omega)
  rw [none] at phnum
  obtain ⟨stack, after, task, working⟩ :=
    working.taskInit sched (.inr rfl) apart (mem.read (base + eEntry) 8) blockInside bstackInside
  refine ⟨fresh, stack, after, ?_, working⟩
  unfold loadElfModule
  rw [Traced.outcome_bind, outcome_readMember, ok_bind, Traced.outcome_bind, Traced.outcome_silent, created, ok_bind]
  dsimp only
  rw [Traced.outcome_bind, loadSegments_none (by rw [placed]; exact phnum), ok_bind, Traced.outcome_bind,
    outcome_readMember, ok_bind, Traced.outcome_silent, placed, entry, task]

/-- What liballoc did at boot: one block of 64 pages, and what was cut out of it. -/
def firstCall (heap : Nat) : HeapCall := ⟨[.alloc 64], mmapPhysToIo heap⟩
def laterCall (heap offset : Nat) : HeapCall := ⟨[], mmapPhysToIo (heap + offset)⟩

/-- Memory below the first megabyte is not the allocator's. -/
theorem gigabyte_low {pmm : Pmm} {edited : Handover} (placed : pmmInit gigabyte = .ok (pmm, edited))
    (list : edited.mmap = [gigabyteEntry]) (page : Nat) (below : page < 256) : ¬ Available pmm page := by
  have fits : gigabyte.Fits := by
    constructor <;> simp [gigabyte]
  intro free
  obtain ⟨mmap, member, inside⟩ := (pmmInit_available fits placed).2 page free
  rw [list] at member
  obtain rfl := List.mem_singleton.mp member
  have place := Range.mem_pages.mp inside
  have base : (initRange gigabyteEntry).base = 0x108000 := by decide +kernel
  omega

/-- The first block of the heap, and what it takes to map it. -/
theorem gigabyte_heap (mem : Bytes) : ∃ pmm initial heap root vm after, pmmInit gigabyte =
    .ok (pmm, { gigabyte with mmap := [gigabyteEntry] }) ∧
    vmmInit mem pmm { gigabyte with mmap := [gigabyteEntry] } = .ok vm ∧
    liballocAlloc ⟨.zero, vm⟩ 64 = .ok (mmapPhysToIo heap, ⟨.zero, after⟩) ∧
      Working mem initial (· = root) root heap 20000 after := by
  obtain ⟨pmm, vm, placed, sized, booted, supply⟩ := gigabyte_vm mem
  have addressable : ∀ mmap ∈ [gigabyteEntry], Addressable mmap := by
    simp [Addressable, gigabyteEntry]
  have fits : gigabyte.Fits := by
    constructor <;> simp [gigabyte]
  obtain ⟨root, start⟩ := vmmInit_booted sized addressable booted
  have ledger := vmmInit_ledger (pmmInit_bound fits placed) booted
  have low := gigabyte_low placed rfl
  have room : Supply vm.pmm (64 + 23936) := supply
  obtain ⟨range, given, allocated, length, left⟩ :=
    room.alloc .heap (show 0 < 64 * pageSize by decide) (by decide) (by decide)
  obtain ⟨spaces, grows, same, fresh⟩ := start.spaces.allocated allocated
  obtain ⟨aligned, -, -, -⟩ := alloc_length start.spaces.sized allocated (by omega)
  have inside (page : Nat) (here : page ∈ range.pages) : page < vm.pmm.bitmapSize := (fresh page here).1.1
  have small := ledger.small
  have last := inside (range.base / 4096 + 63) (Range.mem_pages.mpr (by omega))
  have first : 256 ≤ range.base / 4096 := by
    by_contra before
    have page : range.base / 4096 ∈ range.pages := Range.mem_pages.mpr (by omega)
    exact (start.foreign _ (low _ (by omega))).held (fresh _ page).1
  have enough : 20000 + directTables range.base (64 * 4096) ≤ 23936 := by
    unfold directTables leafTables
    rw [if_neg (by decide)]
    omega
  have own : KernelSpace root given := ⟨grows.kernel.trans start.own.pml4, by rw [same]; exact start.own.hole⟩
  obtain ⟨after, mapping, left, spaces', own', grows'⟩ :=
    direct_returns range.base range.length true spaces own aligned (by omega)
    (left.less (length ▸ enough))
  obtain ⟨tables, entered⟩ := vmmMapRange_enters mapping
  have block := alloc_entered allocated
  have all := grows.trans grows'
  refine ⟨pmm, pmm, range.base, root, vm, after, placed, booted, ?_, spaces', rfl, own', left,
    entered.ledger (block.ledger ledger), fun place below => ?_, fun place before behind => ⟨?_, ?_⟩,
      by omega, by omega⟩
  · have positive : 0 < range.length := by omega
    unfold liballocAlloc heapSpace
    rw [if_neg (by simp [Sched.zero])]
    change (Vm.alloc vm .heap (64 * pageSize) >>= _) = _
    rw [allocated, ok_bind]
    dsimp only
    rw [check_true _ positive, ok_bind]
    have pml4 : vm.kernelPml4 = given.kernelPml4 := grows.kernel.symm
    rw [pml4, mapping]
    rfl
  · have foreign := start.foreign (place / 4096) (low _ (by omega))
    exact ⟨all.reserved foreign, (all.reserved_byte foreign).trans (start.bytes place (low _ (by omega)))⟩
  · refine heapOwned_grows entered.owners ?_
    unfold heapOwned
    rw [block.owners]
    simp only [List.cons_append, List.any_cons, List.nil_append, Bool.or_eq_true]
    left
    simp only [BEq.rfl, Bool.true_and, Bool.and_eq_true, decide_eq_true_eq]
    omega
  · exact grows'.reserved (fresh _ (Range.mem_pages.mpr (by omega))).2

theorem gigabyte_boots (mem : Bytes) : ∃ initial heap root vm sched,
    boot mem gigabyte (firstCall heap) (laterCall heap 0x4000) (laterCall heap 0x8000) (laterCall heap 0xc000)
      (laterCall heap 0xd000) =
        .ok ⟨⟨sched, vm⟩, [], 0, [], []⟩ ∧
      schedInit .zero root (some (mmapPhysToIo (heap + 0xd000))) = .ok sched ∧
      Working mem initial (· = root) root heap 20000 vm := by
  obtain ⟨pmm, initial, heap, root, vm, after, placed, booted, block, working⟩ := gigabyte_heap mem
  obtain ⟨zeroed, process, later⟩ := working.kcalloc .zero processSize 0xc000 (by decide)
  have second := working.kmalloc .zero kernelStackSize 0x4000 (by decide)
  have third := working.kmalloc .zero kernelStackSize 0x8000 (by decide)
  have table := later.kmalloc .zero 8 0xd000 (by decide)
  have first : Navy.kmalloc ⟨.zero, vm⟩ kernelStackSize (firstCall heap) = .ok (mmapPhysToIo heap, ⟨.zero, after⟩) := by
    have plain := working.kmalloc .zero kernelStackSize 0 (by decide)
    unfold Navy.kmalloc liballocMalloc HeapCall.run firstCall at *
    simp only [List.foldlM_cons, List.foldlM_nil, heapAct, block, ok_bind, Nat.add_zero] at plain ⊢
    exact plain
  have root' : vmmSwitchSpace zeroed.kernelPml4 = root := by
    rw [later.own.pml4, vmmSwitchSpace, phys_io _ (later.spaces.aligned root rfl).2]
  obtain ⟨sched, started⟩ := exists_of_isOk (schedInit .zero root (some (mmapPhysToIo (heap + 0xd000)))) rfl
  refine ⟨initial, heap, root, zeroed, sched, ?_, started, later⟩
  unfold boot intstackInit schedInitHeap krealloc laterCall
  unfold Navy.kmalloc at table
  simp only [placed, booted, first, second, third, process, table, root', started, ok_bind, pure_bind]
  rfl

/-- The scheduler with the kernel's process and one more. -/
def pairSched (root first second : Nat) (process : Process) : Checked Sched := do
  let sched ← schedInit .zero root (some first)
  schedPushProcess1 sched process (some second)

/-- A module of 64 bytes in low memory. -/
def lowModule : Range := ⟨mmapPhysToIo 0x10000, 64⟩

/-- The machine comes up, and a first process is made and pushed. -/
theorem gigabyte_pushes (mem : Bytes) (none : mem.read (0x10000 + ePhnum) 2 = 0) :
    ∃ initial heap root start booted sched fresh stack vm,
    boot mem gigabyte (firstCall heap) (laterCall heap 0x4000) (laterCall heap 0x8000) (laterCall heap 0xc000)
      (laterCall heap 0xd000) =
        .ok ⟨⟨start, booted⟩, [], 0, [], []⟩ ∧
      Working mem initial (· = root) root heap 20000 booted ∧
      (loadElfModule ⟨start, booted⟩ lowModule (laterCall heap 0xe000) (laterCall heap 0x10000)).outcome =
        .ok (newTask (mmapPhysToIo fresh) (mem.read (0x10000 + eEntry) 8) (mmapPhysToIo (heap + 0x10000)) stack,
          ⟨start, vm⟩) ∧
      System.act ⟨⟨start, booted⟩, [], 0, [], []⟩ (.load lowModule (laterCall heap 0xe000) (laterCall heap 0x10000)) =
        .ok ⟨⟨start, vm⟩, [newTask (mmapPhysToIo fresh) (mem.read (0x10000 + eEntry) 8)
          (mmapPhysToIo (heap + 0x10000)) stack], 0, [mmapPhysToIo (heap + 0x10000)], []⟩ ∧
      System.act ⟨⟨start, vm⟩, [newTask (mmapPhysToIo fresh) (mem.read (0x10000 + eEntry) 8)
          (mmapPhysToIo (heap + 0x10000)) stack], 0, [mmapPhysToIo (heap + 0x10000)], []⟩
          (.push 0 .none (laterCall heap 0x14000)) =
        .ok ⟨⟨sched, vm⟩, [], 0, [mmapPhysToIo (heap + 0x10000)], []⟩ ∧
      pairSched root (mmapPhysToIo (heap + 0xd000)) (mmapPhysToIo (heap + 0x14000))
        (newTask (mmapPhysToIo fresh) (mem.read (0x10000 + eEntry) 8) (mmapPhysToIo (heap + 0x10000)) stack) =
          .ok sched ∧
      Working mem initial (fun other => other = root ∨ other = fresh) root heap 19992 vm := by
  obtain ⟨initial, heap, root, booted, start, boots, started, working⟩ := gigabyte_boots mem
  obtain ⟨fresh, stack, vm, loads, later⟩ :=
    Working.loadEmpty (show Working mem initial _ root heap (19992 + 8) booted from working) start
    (show lowModule.base = mmapPhysToIo 0x10000 from rfl) (by decide) none 0xe000 0x10000 (by decide) (by decide)
  have table := later.kmalloc start 16 0x14000 (by decide)
  have below := working.below
  have present : mmapPhysToIo (heap + 0x10000) ≠ 0 := by
    unfold mmapPhysToIo
    simp only [wrap, mmapIoBase]
    omega
  obtain ⟨sched, pushed⟩ :=
    exists_of_isOk (pairSched root (mmapPhysToIo (heap + 0xd000)) (mmapPhysToIo (heap + 0x14000))
    (newTask (mmapPhysToIo fresh) (mem.read (0x10000 + eEntry) 8) (mmapPhysToIo (heap + 0x10000)) stack)) rfl
  refine ⟨initial, heap, root, start, booted, sched, fresh, stack, vm, boots, working, loads, ?_, ?_, pushed, later⟩
  · change System.load _ _ _ _ = _
    unfold System.load laterCall
    rw [loads, ok_bind]
    unfold System.take
    dsimp only
    rw [check_true _ ⟨present, by simp⟩]
    rfl
  · obtain rfl := Except.ok.inj started
    obtain rfl := Except.ok.inj pushed
    change (krealloc _ 16 _ >>= _) >>= _ = _
    unfold krealloc laterCall
    unfold Navy.kmalloc at table
    rw [table]
    rfl

end Navy
