import Navy.Proofs.LiveSystem

/-! What a load does with memory that was free. A byte of a free frame that it
neither clears nor overwrites can be changed before the load or after it. -/

namespace Navy
open Paging Outcome

variable {roots : Nat → Prop} {initial : Pmm} {root : Nat} {vm after : Vm} {place : Nat} (value : BitVec 8)

/-- The machine with one byte of memory changed. -/
def Vm.poke (vm : Vm) (place : Nat) (value : BitVec 8) : Vm := { vm with mem := Function.update vm.mem place value }

@[simp] theorem Vm.poke_mem (vm : Vm) : (vm.poke place value).mem = Function.update vm.mem place value := rfl
@[simp] theorem Vm.poke_pmm (vm : Vm) : (vm.poke place value).pmm = vm.pmm := rfl
@[simp] theorem Vm.poke_kernelPml4 (vm : Vm) : (vm.poke place value).kernelPml4 = vm.kernelPml4 := rfl
@[simp] theorem Vm.poke_owners (vm : Vm) : (vm.poke place value).owners = vm.owners := rfl

/-- What is free does not depend on what memory holds. -/
theorem Vm.memory_pmm (vm : Vm) (mem : Bytes) : Vm.pmm { vm with mem } = vm.pmm := rfl

theorem alloc_poke {owner : Owner} {amount : Nat} {range : Range} (ran : vm.alloc owner amount = .ok (range, after)) :
    (vm.poke place value).alloc owner amount = .ok (range, after.poke place value) := by
  obtain ⟨⟨found, pmm⟩, allocated, rest⟩ := bind_ok ran
  obtain ⟨rfl, rfl⟩ := Prod.mk.inj (Except.ok.inj rest)
  unfold Vm.alloc
  rw [Vm.poke_pmm, allocated]
  rfl

/-- Entries of a table elsewhere. -/
theorem pmlEntry_update (mem : Bytes) {table index : Nat} (aligned : table % 4096 = 0) (small : table < 2 ^ 64)
    (inside : index < 512) (aside : place / 4096 ≠ table / 4096) :
    pmlEntry (Function.update mem place value) (mmapPhysToIo table) index = pmlEntry mem
      (mmapPhysToIo table) index := by
  unfold pmlEntry
  rw [phys_io _ small, Bytes.read_update _ _ (by omega)]

theorem setPmlEntry_update (mem : Bytes) {table index : Nat} (entry : PmlEntry) (aligned : table % 4096 = 0)
    (small : table < 2 ^ 64) (inside : index < 512) (aside : place / 4096 ≠ table / 4096) :
    setPmlEntry (Function.update mem place value) (mmapPhysToIo table) index entry =
      Function.update (setPmlEntry mem (mmapPhysToIo table) index entry) place value := by
  unfold setPmlEntry
  rw [phys_io _ small, Bytes.write_update _ _ _ (by omega)]

theorem memset_update (mem : Bytes) {target count : Nat}
    (aside : place < mmapIoToPhys target ∨ mmapIoToPhys target + count ≤ place) :
    memset (Function.update mem place value) target 0 count = Function.update
      (memset mem target 0 count) place value := by
  unfold memset
  exact Bytes.fill_update _ _ _ aside

/-- A page that an operation does not take. -/
def Untaken (page : Nat) (vm after : Vm) : Prop := Available after.pmm page ∨ ¬ Available vm.pmm page

/-- A page that is no table of the spaces. -/
def Aside (roots : Nat → Prop) (vm : Vm) (page : Nat) : Prop :=
  ∀ table, IsTable roots vm.mem table → page ≠ table / 4096

section Parts

variable {middle : Vm} {page : Nat}

theorem Untaken.early (untaken : Untaken page vm after) (grows : Grows roots middle after) : Untaken page vm middle :=
  untaken.imp_left (grows.available page)

theorem Untaken.late (untaken : Untaken page vm after) (grows : Grows roots vm middle) : Untaken page middle after :=
  untaken.imp_right (mt (grows.available page))

theorem Aside.grow (aside : Aside roots vm page) (grows : Grows roots vm after) (forest : Forest roots after)
    (untaken : Untaken page vm after) : Aside roots after page := by
  intro table isTable clash
  rcases grows.fresh table isTable with old | new
  · exact aside table old clash
  · rcases untaken with free | held
    · exact forest.reserved table isTable (clash ▸ free)
    · exact held (clash ▸ new)

/-- A free page is no table. -/
theorem Aside.free (forest : Forest roots vm) (free : Available vm.pmm page) : Aside roots vm page :=
  fun table isTable clash => forest.reserved table isTable (clash ▸ free)

end Parts

theorem vmmGetPmlAlloc_poke (forest : Forest roots vm) {table index : Nat} {range : Range} {isUser : Bool}
    (isTable : IsTable roots vm.mem table) (inside : index < 512) (aside : place / 4096 ≠ table / 4096)
    (untaken : Untaken (place / 4096) vm after)
    (ran : vmmGetPmlAlloc vm (mmapPhysToIo table) index isUser = .ok (range, after)) :
    vmmGetPmlAlloc (vm.poke place value) (mmapPhysToIo table) index isUser = .ok (range, after.poke place value) := by
  obtain ⟨aligned, small⟩ := forest.table_aligned isTable
  unfold vmmGetPmlAlloc at ran ⊢
  dsimp only at ran ⊢
  rw [Vm.poke_mem, pmlEntry_update value _ aligned small inside aside]
  split at ran
  next present =>
    obtain ⟨rfl, rfl⟩ := Prod.mk.inj (Except.ok.inj ran)
    exact if_pos present
  next absent =>
    rw [if_neg absent]
    obtain ⟨⟨frame, middle⟩, allocated, ran⟩ := bind_ok ran
    obtain ⟨⟨⟩, positive, rest⟩ := bind_ok ran
    obtain ⟨rfl, rfl⟩ := Prod.mk.inj (Except.ok.inj rest)
    have result := alloc_ok forest.sized allocated
    have claimed : Claimed roots vm frame.base { middle with mem := memset middle.mem (mmapPhysToIo frame.base) 0 pageSize } := by
      have taken := allocated_of_taken forest.sized result.1 (check_ok positive)
      rw [result.2.2]
      exact forest.claim taken
    -- the frame that is taken here is not the byte's
    have new : place / 4096 ≠ frame.base / 4096 := by
      intro clash
      rcases untaken with free | held
      · exact claimed.gone (clash ▸ free)
      · exact held (clash ▸ claimed.was)
    have outside : place < mmapIoToPhys (mmapPhysToIo frame.base) ∨ mmapIoToPhys (mmapPhysToIo frame.base) + pageSize ≤ place := by
      have aligned := claimed.aligned
      have small := claimed.small
      rw [phys_io _ (by omega)]
      simp only [pageSize]
      omega
    rw [alloc_poke value allocated, ok_bind]
    dsimp only
    rw [check_true _ (check_ok positive), ok_bind, Vm.poke_mem, memset_update value _ outside, setPmlEntry_update value _ _ aligned small inside aside]
    rfl

theorem vmmMapPage_poke (forest : Forest roots vm) (isRoot : roots root) {virt phys : Nat} {isUser : Bool}
    (aside : Aside roots vm (place / 4096)) (untaken : Untaken (place / 4096) vm after)
    (ran : vmmMapPage vm (mmapPhysToIo root) virt phys isUser = .ok after) :
    vmmMapPage (vm.poke place value) (mmapPhysToIo root) virt phys isUser = .ok (after.poke place value) := by
  obtain ⟨⟨pml3Range, vm3⟩, first, ran⟩ := bind_ok ran
  obtain ⟨⟨pml2Range, vm2⟩, second, ran⟩ := bind_ok ran
  obtain ⟨⟨pml1Range, vm1⟩, third, rest⟩ := bind_ok ran
  obtain rfl := Except.ok.inj rest
  obtain ⟨pml3, base3, step3⟩ := vmmGetPmlAlloc_ok forest isRoot (show ([] : List Nat).length < 3 by simp) rfl
    (pmlxGetIndex_lt virt 3) first
  rw [base3] at second
  obtain ⟨pml2, base2, step2⟩ := vmmGetPmlAlloc_ok step3.forest isRoot (by simp) step3.reached
    (pmlxGetIndex_lt virt 2) second
  rw [base2] at third
  obtain ⟨pml1, base1, step1⟩ := vmmGetPmlAlloc_ok step2.forest isRoot (by simp) step2.reached
    (pmlxGetIndex_lt virt 1) third
  -- the tables of the descent, each aside of the byte
  have grows := (step3.grows.trans step2.grows).trans step1.grows
  have untaken1 : Untaken (place / 4096) vm vm1 := untaken
  have untaken2 := untaken1.early step1.grows
  have untaken3 := untaken2.early step2.grows
  have aside3 := aside.grow step3.grows step3.forest untaken3
  have aside2 := aside3.grow step2.grows step2.forest (untaken2.late step3.grows)
  have aside1 := aside2.grow step1.grows step1.forest (untaken1.late (step3.grows.trans step2.grows))
  have table (path : List Nat) (short : path.length ≤ 3) {vm : Vm} {found : Nat}
    (hit : follow vm.mem root path = some found) :
      IsTable roots vm.mem found := ⟨root, path, isRoot, short, hit⟩
  have top : IsTable roots vm.mem root := table [] (by simp) rfl
  have next3 := table _ (by simp) step3.reached
  have next2 := table _ (by simp) step2.reached
  have next1 := table _ (by simp) step1.reached
  obtain ⟨aligned, small⟩ := step1.forest.table_aligned next1
  have turn3 := vmmGetPmlAlloc_poke value forest top (pmlxGetIndex_lt virt 3) (aside root top) untaken3 first
  have turn2 := vmmGetPmlAlloc_poke value step3.forest next3 (pmlxGetIndex_lt virt 2) (aside3 pml3 next3)
    (untaken2.late step3.grows) second
  have turn1 := vmmGetPmlAlloc_poke value step2.forest next2 (pmlxGetIndex_lt virt 1) (aside2 pml2 next2)
    (untaken1.late (step3.grows.trans step2.grows)) third
  unfold vmmMapPage pml4GetIndex pml3GetIndex pml2GetIndex pml1GetIndex
  rw [turn3, ok_bind]
  dsimp only
  rw [base3, turn2, ok_bind]
  dsimp only
  rw [base2, turn1, ok_bind]
  dsimp only
  rw [base1, Vm.poke_mem, setPmlEntry_update value _ _ aligned small (pmlxGetIndex_lt virt 0) (aside1 pml1 next1)]
  rfl

theorem vmmMapRange_poke (forest : Forest roots vm) (isRoot : roots root) {virt phys : Range} {isUser : Bool}
    (aside : Aside roots vm (place / 4096)) (untaken : Untaken (place / 4096) vm after)
    (ran : vmmMapRange vm (mmapPhysToIo root) virt phys isUser = .ok after) :
    vmmMapRange (vm.poke place value) (mmapPhysToIo root) virt phys isUser = .ok (after.poke place value) := by
  obtain ⟨⟨⟩, equal, ran⟩ := bind_ok ran
  unfold vmmMapRange
  rw [equal, ok_bind]
  refine (@foldlM_seen _ _ _ _ (Vm.poke · place value) (fun state => Forest roots state ∧ Grows roots vm state)
    (Untaken (place / 4096) vm) _ (fun state index next kept turn => ?_) _ _ ⟨forest, .refl _ _⟩ ran untaken).2
  obtain ⟨forest, grows⟩ := kept
  have mapped := vmmMapPage_ok forest isRoot turn
  refine ⟨⟨mapped.forest, grows.trans mapped.grows⟩, fun fine => ?_⟩
  have before := fine.early mapped.grows
  exact ⟨before, vmmMapPage_poke value forest isRoot (aside.grow grows forest before) (fine.late grows) turn⟩

/-- The upper half of a new PML4, slot by slot. -/
private theorem copyUpper_update (mem : Bytes) {kernel fresh : Nat} (kernelAligned : kernel % 4096 = 0)
    (kernelSmall : kernel < 2 ^ 64) (aligned : fresh % 4096 = 0) (small : fresh < 2 ^ 64)
    (apart : place / 4096 ≠ kernel / 4096) (aside : place / 4096 ≠ fresh / 4096) {count : Nat}
    (few : count ≤ 257) :
    (List.range count).foldl (fun mem i => setPmlEntry mem (mmapPhysToIo fresh) (255 + i)
      (pmlEntry mem (mmapPhysToIo kernel) (255 + i)))
        (Function.update mem place value) =
      Function.update ((List.range count).foldl (fun mem i =>
        setPmlEntry mem (mmapPhysToIo fresh) (255 + i)
          (pmlEntry mem (mmapPhysToIo kernel) (255 + i))) mem) place value := by
  induction count with
  | zero => rfl
  | succ count ih =>
    rw [List.range_succ, List.foldl_append, List.foldl_append, ih (by omega)]
    simp only [List.foldl_cons, List.foldl_nil]
    rw [pmlEntry_update value _ kernelAligned kernelSmall (by omega) apart,
      setPmlEntry_update value _ _ aligned small (by omega) aside]

theorem vmmSpaceCreate_poke (spaces : Spaces roots vm) (isRoot : roots root) (own : KernelSpace root vm) {pml : Nat}
    (free : Available after.pmm (place / 4096)) (ran : vmmSpaceCreate vm = .ok (pml, after)) :
    vmmSpaceCreate (vm.poke place value) = .ok (pml, after.poke place value) := by
  obtain ⟨⟨frame, middle⟩, allocated, ran⟩ := bind_ok ran
  obtain ⟨⟨⟩, positive, rest⟩ := bind_ok ran
  obtain ⟨rfl, rfl⟩ := Prod.mk.inj (Except.ok.inj rest)
  have result := alloc_ok spaces.sized allocated
  have claimed : Claimed roots vm frame.base { middle with mem := memset middle.mem (mmapPhysToIo frame.base) 0 pageSize } := by
    have taken := allocated_of_taken spaces.sized result.1 (check_ok positive)
    rw [result.2.2]
    exact spaces.claim taken
  have aligned := claimed.aligned
  have small := claimed.small
  have source : middle.kernelPml4 = mmapPhysToIo root := claimed.grows.kernel.trans own.pml4
  have aside : place / 4096 ≠ frame.base / 4096 := fun clash => claimed.gone (clash ▸ free)
  have apart : place / 4096 ≠ root / 4096 := fun clash =>
    spaces.reserved root ⟨root, [], isRoot, by simp, rfl⟩ (clash ▸ claimed.grows.available _ free)
  have outside : place < mmapIoToPhys (mmapPhysToIo frame.base) ∨ mmapIoToPhys (mmapPhysToIo frame.base) + pageSize ≤ place := by
    rw [phys_io _ (by omega)]
    simp only [pageSize]
    omega
  have copy := copyUpper_update value (memset middle.mem (mmapPhysToIo frame.base) 0 pageSize) (spaces.aligned root isRoot).1
    (spaces.aligned root isRoot).2 aligned (by omega) apart aside (Nat.le_refl 257)
  unfold vmmSpaceCreate
  rw [alloc_poke value allocated, ok_bind]
  dsimp only
  rw [check_true _ (check_ok positive), ok_bind, Vm.poke_mem, memset_update value _ outside]
  rw [← source] at copy
  rw [show 512 - 255 = 257 by rfl, Vm.poke_kernelPml4, copy]
  generalize List.foldl _ (memset middle.mem _ _ _) _ = mem
  rfl

/-- The whole kernel with one byte of memory changed. -/
def Kernel.poke (kernel : Kernel) (place : Nat) (value : BitVec 8) : Kernel :=
  { kernel with vm := kernel.vm.poke place value }

@[simp] theorem Kernel.poke_vm (kernel : Kernel) : (kernel.poke place value).vm = kernel.vm.poke place value := rfl

theorem Kernel.memory_pmm (kernel : Kernel) (mem : Bytes) :
    Vm.pmm (Kernel.vm { kernel with vm := { kernel.vm with mem } }) = kernel.vm.pmm := rfl

section Heap

variable {kernel grown : Kernel} {call : HeapCall}

theorem liballocAlloc_poke {size pointer : Nat} (sound : Sane initial roots root kernel.vm) (homed : Homed roots kernel)
    (free : Available grown.vm.pmm (place / 4096)) (ran : liballocAlloc kernel size = .ok (pointer, grown)) :
    liballocAlloc (kernel.poke place value) size = .ok (pointer, grown.poke place value) := by
  obtain ⟨space, chosen, ran⟩ := bind_ok ran
  obtain ⟨home, isHome, rfl⟩ := homed space chosen
  obtain ⟨⟨range, given⟩, allocated, ran⟩ := bind_ok ran
  obtain ⟨⟨⟩, positive, ran⟩ := bind_ok ran
  obtain ⟨mapped, mapping, rest⟩ := bind_ok ran
  obtain ⟨rfl, rfl⟩ := Prod.mk.inj (Except.ok.inj rest)
  obtain ⟨sound', -, -, owners, fresh⟩ := sound.allocated allocated
  have aligned := sound'.ledger.accounts.aligned range (by rw [owners]; simp)
  obtain ⟨-, grows, -⟩ :=
    sound'.mapHeap isHome aligned.1 aligned.2 (fun page inside => sound.initially (fresh page inside).1) mapping
  have early := grows.available _ free
  have mapping := vmmMapRange_poke value sound'.spaces.toForest isHome (.free sound'.spaces.toForest early)
    (.inl free) mapping
  unfold liballocAlloc
  rw [show heapSpace (kernel.poke place value) = .ok (mmapPhysToIo home) from chosen, ok_bind]
  change (Vm.alloc (kernel.vm.poke place value) _ _ >>= _) = _
  rw [alloc_poke value allocated, ok_bind]
  dsimp only
  rw [check_true _ (check_ok positive), ok_bind, mapping]
  rfl

theorem heapAct_poke {action : HeapAction} (sound : Sane initial roots root kernel.vm) (homed : Homed roots kernel)
    (free : Available grown.vm.pmm (place / 4096)) (ran : heapAct kernel action = .ok grown) :
    heapAct (kernel.poke place value) action = .ok (grown.poke place value) := by
  cases action with
  | alloc size =>
    obtain ⟨⟨pointer, next⟩, allocated, rest⟩ := bind_ok ran
    obtain rfl := Except.ok.inj rest
    change (liballocAlloc (kernel.poke place value) size >>= _) = _
    rw [liballocAlloc_poke value sound homed free allocated]
    rfl
  | free ptr pages =>
    obtain ⟨⟨⟩, known, freed⟩ := bind_ok ran
    obtain ⟨pmm, marked, rest⟩ := bind_ok freed
    obtain rfl := Except.ok.inj rest
    change (check _ _ >>= fun _ => pmmFree kernel.vm.pmm _ >>= _) = _
    rw [Kernel.poke_vm, Vm.poke_owners, check_true _ (check_ok known), ok_bind, marked]
    rfl
  | write target byte =>
    obtain ⟨⟨⟩, owned, rest⟩ := bind_ok ran
    obtain rfl := Except.ok.inj rest
    have apart : place ≠ target := fun clash => (sound.heap_reserved (check_ok owned)).held (clash ▸ free)
    change (check (heapOwned kernel.vm target = true) _ >>= _) = _
    rw [check_true _ (check_ok owned), ok_bind]
    unfold Kernel.poke Vm.poke
    rw [Function.update_comm apart]
    rfl

theorem HeapCall.run_poke (sound : Sane initial roots root kernel.vm) (homed : Homed roots kernel)
    (free : Available grown.vm.pmm (place / 4096)) (ran : call.run kernel = .ok grown) :
    call.run (kernel.poke place value) = .ok (grown.poke place value) := by
  refine (@foldlM_seen _ _ _ _ (Kernel.poke · place value)
    (fun state => Took initial roots root HeapOwner (fun _ _ => False) kernel.vm state.vm ∧ state.sched = kernel.sched)
    (fun state => Available state.vm.pmm (place / 4096)) _ (fun state action next kept turn =>
      ?_) _ _ ⟨.refl sound _ _, rfl⟩ ran free).2
  obtain ⟨took, same⟩ := kept
  have homed := homed.congr same took.moves.kernel
  obtain ⟨later, same'⟩ := heapAct_took took.sound homed turn
  exact ⟨⟨took.trans sound.ledger later, same'.trans same⟩,
    fun free => ⟨later.moves.available _ free, heapAct_poke value took.sound homed free turn⟩⟩

theorem kmalloc_poke {count pointer : Nat} (sound : Sane initial roots root kernel.vm) (homed : Homed roots kernel)
    (free : Available grown.vm.pmm (place / 4096)) (ran : kmalloc kernel count call = .ok (pointer, grown)) :
    kmalloc (kernel.poke place value) count call = .ok (pointer, grown.poke place value) := by
  obtain ⟨middle, called, ran⟩ := bind_ok ran
  obtain ⟨⟨⟩, inside, rest⟩ := bind_ok ran
  obtain ⟨rfl, rfl⟩ := Prod.mk.inj (Except.ok.inj rest)
  unfold kmalloc liballocMalloc
  rw [HeapCall.run_poke value sound homed free called, ok_bind]
  change (check ((List.range count).all fun offset =>
    heapOwned middle.vm (mmapIoToPhys call.pointer + offset)) _ >>= _) = _
  rw [check_true _ (check_ok inside)]
  rfl

theorem kcalloc_poke {count pointer : Nat} (sound : Sane initial roots root kernel.vm) (homed : Homed roots kernel)
    (free : Available grown.vm.pmm (place / 4096)) (ran : kcalloc kernel count call = .ok (pointer, grown)) :
    kcalloc (kernel.poke place value) count call = .ok (pointer, grown.poke place value) := by
  obtain ⟨⟨ptr, middle⟩, called, rest⟩ := bind_ok ran
  obtain ⟨rfl, rfl⟩ := Prod.mk.inj (Except.ok.inj rest)
  rw [Kernel.memory_pmm] at free
  obtain ⟨took, -, owned⟩ := kmalloc_took sound homed called
  have outside : place < mmapIoToPhys ptr ∨ mmapIoToPhys ptr + count ≤ place := by
    by_contra inside
    have here := owned (place - mmapIoToPhys ptr) (by omega)
    rw [show mmapIoToPhys ptr + (place - mmapIoToPhys ptr) = place by omega] at here
    exact (took.sound.heap_reserved here).held free
  have called := kmalloc_poke value sound homed free called
  unfold kmalloc at called
  unfold kcalloc
  rw [called, ok_bind]
  unfold Kernel.poke
  dsimp only
  rw [Vm.poke_mem, memset_update value _ outside]
  rfl

end Heap

section Load

variable {start : Vm} {elf addr : Range} {space phdr : Nat}

theorem member_update (mem : Bytes) {pointer offset count : Nat}
    (aside : place < mmapIoToPhys (wrap (pointer + offset)) ∨ mmapIoToPhys (wrap (pointer + offset)) + count ≤ place) :
    member (Function.update mem place value) pointer offset count = member mem pointer offset count := by
  unfold member
  exact Bytes.read_update _ _ aside

/-- A member of the module, where the byte is none of its. -/
theorem Placed.member_poke (placed : Placed roots start elf) (free : Available start.pmm (place / 4096)) (mem : Bytes)
    {pointer offset count : Nat} (inside : Inside elf (wrap (pointer + offset)) count) :
    member (Function.update mem place value) pointer offset count = member mem pointer offset count := by
  apply member_update
  by_contra within
  exact (placed.reserved place (placed.inside inside (by omega) (by omega))).held free

/-- Filling frames that the byte is not in. -/
theorem Granted.filled_poke (granted : Granted roots start vm addr) (placed : Placed roots start elf)
    (grows : Grows roots start vm) (fits : SegmentFits start.mem elf phdr)
    (size : member start.mem phdr pMemsz 8 ≤ addr.length) (free : Available start.pmm (place / 4096))
    (aside : ¬ (addr.base ≤ place ∧ place < addr.base + addr.length)) :
    filled elf phdr addr (Function.update vm.mem place value) = Function.update
      (filled elf phdr addr vm.mem) place value := by
  have small := granted.small
  have fitting := fits.size
  have kept {offset : Nat} (among : offset ∈ [pOffset, pVaddr, pFilesz, pMemsz]) :
      member vm.mem phdr offset 8 = member start.mem phdr offset 8 :=
        placed.member_kept grows (fits.members offset among)
  have poked (mem : Bytes) {offset : Nat} (among : offset ∈ [pOffset, pVaddr, pFilesz, pMemsz]) :
      member (Function.update mem place value) phdr offset 8 = member mem phdr offset 8 :=
    placed.member_poke value free mem (fits.members offset among)
  have filesz := kept (show pFilesz ∈ [pOffset, pVaddr, pFilesz, pMemsz] by decide)
  have offset := kept (show pOffset ∈ [pOffset, pVaddr, pFilesz, pMemsz] by decide)
  -- the copy
  have copy : copied elf phdr addr (Function.update vm.mem place value) = Function.update
    (copied elf phdr addr vm.mem) place value := by
    unfold copied memcpy
    rw [poked _ (by decide), poked _ (by decide), filesz, offset, granted.pointer]
    split
    next => rfl
    next source =>
      apply Bytes.copy_update
      · omega
      · by_contra within
        have some : member start.mem phdr pFilesz 8 ≠ 0 := by omega
        have data := fits.data source some
        exact (placed.reserved place (placed.inside data (by omega) (by omega))).held free
  -- the fill
  have memsz := granted.copied_member placed grows fits size (show pMemsz ∈ _ by decide)
  have filesz := granted.copied_member placed grows fits size (show pFilesz ∈ _ by decide)
  obtain ⟨target, rest⟩ := granted.fill_extent fits size
  unfold filled
  dsimp only
  rw [copy, poked _ (by decide), poked _ (by decide), memsz, filesz, rest]
  apply memset_update
  rw [target]
  omega

theorem loadSegment_poke (sound : Sane initial roots root vm) (grows : Grows roots start vm)
    (placed : Placed roots start elf) (bound : start.pmm.bitmapSize ≤ 2 ^ 34) (isSpace : roots space)
    (fits : SegmentFits start.mem elf phdr) (free : Available after.pmm (place / 4096))
    (ran : (loadSegment elf (mmapPhysToIo space) phdr vm).outcome = .ok after) :
    (loadSegment elf (mmapPhysToIo space) phdr (vm.poke place value)).outcome = .ok (after.poke place value) := by
  obtain ⟨addr, given, mapped, allocated, some, mapping, rfl⟩ := loadSegment_ok ran
  rw [Vm.memory_pmm] at free
  have memsz := placed.member_kept grows (fits.members pMemsz (by decide))
  obtain ⟨loading, granted, mem, size, length⟩ :=
    Loading.granted ⟨sound.spaces, grows⟩ bound (member_lt _ _ _) allocated some
  rw [memsz] at size length
  have vaddr := placed.member_kept loading.grows (fits.members pVaddr (by decide))
  have half := fits.half
  rw [← length] at half
  have user := (segment_half granted.length some (by have := granted.small; omega)).mpr half
  rw [← vaddr] at user
  obtain ⟨-, grows'⟩ :=
    @Loading.mapped _ _ _ _ _ ⟨member given.mem phdr pVaddr 8, addr.length⟩ _ loading isSpace user mapping
  have early := grows'.available _ free
  have was := loading.grows.available _ early
  have aside : ¬ (addr.base ≤ place ∧ place < addr.base + addr.length) := fun inside =>
    (granted.reserved _ (granted.page.mpr inside)).held early
  have poked (state : Vm) {offset : Nat} (among : offset ∈ [pOffset, pVaddr, pFilesz, pMemsz]) :
      member (state.poke place value).mem phdr offset 8 = member state.mem phdr offset 8 :=
    placed.member_poke value was _ (fits.members offset among)
  have turn := vmmMapRange_poke value loading.spaces.toForest isSpace (.free loading.spaces.toForest early)
    (.inl free) mapping
  have fill := (granted.grow grows').filled_poke value placed (loading.grows.trans grows') fits size was aside
  simp only [loadSegment, Traced.outcome_bind, outcome_readMember, Traced.outcome_silent, mapSegment_outcome,
    copySegment_outcome, ok_bind]
  rw [poked vm (by decide), alloc_poke value allocated, ok_bind]
  dsimp only
  rw [check_true _ some, ok_bind, poked given (by decide), turn, ok_bind, Vm.poke_mem, fill]
  rfl

/-- A round of the loop over the headers. -/
theorem loadHeader_poke {type : Nat} (sound : Sane initial roots root vm) (grows : Grows roots start vm)
    (placed : Placed roots start elf) (bound : start.pmm.bitmapSize ≤ 2 ^ 34) (isSpace : roots space)
    (other : space ≠ root) (fits : type = ptLoad → SegmentFits start.mem elf phdr)
    (ran : (loadHeader elf (mmapPhysToIo space) phdr type vm).outcome = .ok after) :
    Sane initial roots root after ∧ Grows roots vm after ∧ (Available after.pmm (place / 4096) →
      (loadHeader elf (mmapPhysToIo space) phdr type (vm.poke place value)).outcome = .ok
      (after.poke place value)) := by
  unfold loadHeader at ran ⊢
  split at ran
  next load =>
    obtain ⟨took, later, -⟩ := loadSegment_took sound grows placed bound isSpace other (fits load) ran
    rw [if_pos load]
    exact ⟨took.sound, later, fun free => loadSegment_poke value sound grows placed bound isSpace (fits load) free ran⟩
  next skipped =>
    obtain rfl := Except.ok.inj ran
    rw [if_neg skipped]
    exact ⟨sound, .refl _ _, fun _ => rfl⟩

theorem loadSegments_poke {fuel : Nat} (sound : Sane initial roots root vm) (grows : Grows roots start vm)
    (placed : Placed roots start elf) (bound : start.pmm.bitmapSize ≤ 2 ^ 34) (isSpace : roots space)
    (other : space ≠ root) (fits : ModuleFits start.mem elf) (most : fuel ≤ 2 ^ 16)
    (free : Available after.pmm (place / 4096))
    (ran : (loadSegments elf (mmapPhysToIo space) fuel (phdrAt start.mem elf (2 ^ 16 - fuel)) vm).outcome = .ok after) :
    Available vm.pmm (place / 4096) ∧
      (loadSegments elf (mmapPhysToIo space) fuel (phdrAt start.mem elf (2 ^ 16 - fuel))
        (vm.poke place value)).outcome =
        .ok (after.poke place value) := by
  have count : Inside elf (wrap (elf.base + ePhnum)) 2 :=
    (header_inside placed _ _ (by decide) (by decide)).mpr fits.header
  have stride : Inside elf (wrap (elf.base + ePhentsize)) 2 :=
    (header_inside placed _ _ (by decide) (by decide)).mpr (Nat.le_trans (by decide) fits.header)
  induction fuel generalizing vm with
  | zero =>
    obtain rfl := Except.ok.inj ran
    exact ⟨free, rfl⟩
  | succ fuel ih =>
    -- reads of the module do not see the byte
    have poked {state : Vm} (grows : Grows roots start state)
      (free : Available state.pmm (place / 4096)) {pointer offset size : Nat}
        (inside : Inside elf (wrap (pointer + offset)) size) :
        member (state.poke place value).mem pointer offset size = member start.mem pointer offset size :=
      (placed.member_poke value (grows.available _ free) _ inside).trans (placed.member_kept grows inside)
    rw [loadSegments_succ, Traced.outcome_bind, outcome_readMember, ok_bind]
    rcases loadSegments_ok ran with ⟨more, middle, turn, rest⟩ | ⟨fewer, rfl⟩
    · rw [placed.member_kept grows count] at more
      obtain ⟨inside, segment⟩ := fits.segments _ more
      rw [placed.member_kept grows inside] at turn
      obtain ⟨sound', later, round⟩ := loadHeader_poke value sound grows placed bound isSpace other segment turn
      have grows' := grows.trans later
      rw [placed.member_kept grows' stride, phdrAt_succ, show 2 ^ 16 - (fuel + 1) + 1 = 2 ^ 16 - fuel by omega] at rest
      obtain ⟨early, others⟩ := ih sound' grows' (by omega) rest
      have first := later.available _ early
      refine ⟨first, ?_⟩
      rw [poked grows first count, if_pos more, Traced.outcome_bind, outcome_readMember, ok_bind,
        poked grows first inside, Traced.outcome_bind, round early, ok_bind, Traced.outcome_bind,
          outcome_readMember, ok_bind, poked grows' early stride,
        phdrAt_succ, show 2 ^ 16 - (fuel + 1) + 1 = 2 ^ 16 - fuel by omega]
      exact others
    · rw [placed.member_kept grows count] at fewer
      rw [poked grows free count, if_neg (Nat.not_lt_of_le fewer)]
      exact ⟨free, rfl⟩

/-- The byte lies in the stack, which `task_init` takes last and never clears. -/
theorem taskInit_poke {kernel grown : Kernel} {rip : Nat} {block bstack : HeapCall} {process : Process}
    (sound : Sane initial roots root kernel.vm) (homed : Homed roots kernel) (isSpace : roots space)
    (inside : place / 4096 ∈ process.stack.pages)
    (ran : taskInit kernel (mmapPhysToIo space) rip block bstack = .ok (process, grown)) :
    Available kernel.vm.pmm (place / 4096) ∧
      taskInit (kernel.poke place value) (mmapPhysToIo space) rip block bstack = .ok
        (process, grown.poke place value) := by
  obtain ⟨_, zeroed, pointer, heaped, stack, given, mapped, first, second, allocated, some, mapping, rfl, rfl⟩ :=
    taskInit_ok ran
  obtain ⟨zero, sched⟩ := kcalloc_took sound homed first
  have homed' := homed.congr sched zero.moves.kernel
  obtain ⟨heap, -, -⟩ := kmalloc_took zero.sound homed' second
  obtain ⟨sound', -, same, -, fresh⟩ := heap.sound.allocated allocated
  -- free up to here, and held from here on
  obtain ⟨free, reserved⟩ := fresh _ inside
  have early := heap.moves.available _ free
  have aside : Aside roots given (place / 4096) := reserved.apart
  have turn := vmmMapRange_poke value sound'.spaces.toForest isSpace aside (.inr reserved.held) mapping
  refine ⟨zero.moves.available _ early, ?_⟩
  unfold taskInit
  rw [kcalloc_poke value sound homed early first, ok_bind]
  dsimp only
  rw [kmalloc_poke value zero.sound homed' free second, ok_bind]
  dsimp only
  rw [Kernel.poke_vm, alloc_poke value allocated, ok_bind]
  dsimp only
  rw [check_true _ some, ok_bind, turn]
  rfl

/-- A byte of the stack can be changed before a load or after it. -/
theorem loadElfModule_poke {kernel grown : Kernel} {block bstack : HeapCall} {process : Process}
    (sound : Sane initial roots root kernel.vm) (homed : Homed roots kernel)
    (placed : Placed roots kernel.vm elf) (fits : ModuleFits kernel.vm.mem elf)
    (present : DataPresent kernel.vm.mem elf) (inside : place / 4096 ∈ process.stack.pages)
    (ran : (loadElfModule kernel elf block bstack).outcome = .ok (process, grown)) :
    Available kernel.vm.pmm (place / 4096) ∧
      (loadElfModule (kernel.poke place value) elf block bstack).outcome = .ok (process, grown.poke place value) := by
  obtain ⟨fresh, made, loaded, steps, task⟩ := loadElfModule_steps sound homed placed fits present ran
  have imaged := steps.imaged
  obtain ⟨late, task'⟩ := taskInit_poke value imaged.took.sound steps.homed (.inr rfl) inside task
  obtain ⟨middle, loop⟩ := loadSegments_poke value steps.sound (.refl _ _) steps.placed steps.bound
    (.inr rfl) steps.apart steps.fits
    (Nat.le_refl _) late steps.loop
  have early := steps.created.grows.available _ middle
  have make := vmmSpaceCreate_poke value sound.spaces sound.isRoot sound.own middle steps.make
  have header {offset count : Nat} (some : count ≠ 0) (small : offset + count ≤ ePhnum + 2) : Inside elf
    (wrap (elf.base + offset)) count :=
    (header_inside placed _ _ some (Nat.le_trans small (by decide))).mpr (Nat.le_trans small fits.header)
  have phoff := placed.member_poke value early kernel.vm.mem
    (header (show (8 : Nat) ≠ 0 by decide) (show ePhoff + 8 ≤ ePhnum + 2 by decide))
  have entry := steps.placed.member_poke value middle loaded.mem
    (header (show (8 : Nat) ≠ 0 by decide) (show eEntry + 8 ≤ ePhnum + 2 by decide))
  have first : wrap (elf.base + member kernel.vm.mem elf.base ePhoff 8) = phdrAt made.mem elf (2 ^ 16 - 2 ^ 16) := by
    rw [steps.same.phdr]
    simp [phdrAt]
  refine ⟨early, ?_⟩
  unfold loadElfModule
  rw [Traced.outcome_bind, outcome_readMember, ok_bind, Traced.outcome_bind, Traced.outcome_silent, Kernel.poke_vm,
    make, ok_bind]
  dsimp only
  rw [Vm.poke_mem, phoff, first, Traced.outcome_bind, loop, ok_bind, Traced.outcome_bind, outcome_readMember, ok_bind,
    Traced.outcome_silent, Vm.poke_mem, entry]
  exact task'

end Load

end Navy
