import Navy.Library.Holdings
import Navy.System
import Navy.Proofs.Loader
import Navy.Proofs.PmmSpec

/-! The ledger of outstanding allocations. The bitmap shows exactly its entries,
and every operation but a release only adds to it. -/

namespace Navy.Paging
open Outcome
open Pmm (Accounts)

/-- The ledger and the bitmap agree, for an allocator that began with `initial`. -/
structure Ledger (initial : Pmm) (vm : Vm) : Prop where
  bound : initial.bitmapSize ≤ 2 ^ 34
  accounts : Accounts initial (vm.owners.map Prod.snd) vm.pmm

/-- What an operation took from the allocator, and whom for. -/
structure Entered (kind : Owner → Prop) (vm : Vm) (added : List (Owner × Range)) (after : Vm) : Prop where
  owners : after.owners = added ++ vm.owners
  kinds : ∀ entry ∈ added, kind entry.1
  accounts : ∀ initial live, initial.Sized → Accounts initial live vm.pmm →
    Accounts initial (added.map Prod.snd ++ live) after.pmm

def Enters (kind : Owner → Prop) (vm after : Vm) : Prop := ∃ added, Entered kind vm added after

theorem Ledger.sized {initial : Pmm} {vm : Vm} (ledger : Ledger initial vm) : initial.Sized := by
  have bound := ledger.bound
  simp only [Pmm.Sized, pageSize]
  omega

theorem Ledger.pmm_sized {initial : Pmm} {vm : Vm} (ledger : Ledger initial vm) : vm.pmm.Sized :=
  ledger.accounts.sized ledger.sized

theorem Ledger.small {initial : Pmm} {vm : Vm} (ledger : Ledger initial vm) : vm.pmm.bitmapSize ≤ 2 ^ 34 := by
  rw [ledger.accounts.size]
  exact ledger.bound

theorem Entered.ledger {kind : Owner → Prop} {initial : Pmm} {vm after : Vm} {added : List (Owner × Range)}
    (entered : Entered kind vm added after) (ledger : Ledger initial vm) : Ledger initial after := by
  refine ⟨ledger.bound, ?_⟩
  rw [entered.owners, List.map_append]
  exact entered.accounts initial _ ledger.sized ledger.accounts

namespace Enters

variable {kind other : Owner → Prop} {initial : Pmm} {vm middle after : Vm}

theorem ledger (enters : Enters kind vm after) (ledger : Ledger initial vm) : Ledger initial after := by
  obtain ⟨added, entered⟩ := enters
  exact entered.ledger ledger

theorem kept (enters : Enters kind vm after) {entry : Owner × Range} (member : entry ∈ vm.owners) :
    entry ∈ after.owners := by
  obtain ⟨added, entered⟩ := enters
  rw [entered.owners]
  exact List.mem_append_right _ member

theorem refl (kind : Owner → Prop) (vm : Vm) : Enters kind vm vm := ⟨[], rfl, nofun, fun _ _ _ accounts => accounts⟩

theorem trans (first : Enters kind vm middle) (last : Enters kind middle after) : Enters kind vm after := by
  obtain ⟨early, entered⟩ := first
  obtain ⟨late, entered'⟩ := last
  refine ⟨late ++ early, ?_, fun entry member => ?_, fun initial live sized accounts => ?_⟩
  · rw [entered'.owners, entered.owners, List.append_assoc]
  · rcases List.mem_append.mp member with new | old
    · exact entered'.kinds entry new
    · exact entered.kinds entry old
  · rw [List.map_append, List.append_assoc]
    exact entered'.accounts initial _ sized (entered.accounts initial live sized accounts)

theorem mono (enters : Enters kind vm after) (weaker : ∀ owner, kind owner → other owner) : Enters other vm after := by
  obtain ⟨added, entered⟩ := enters
  exact ⟨added, entered.owners, fun entry member => weaker _ (entered.kinds entry member), entered.accounts⟩

theorem memory (enters : Enters kind vm after) (mem : Bytes) : Enters kind vm { after with mem } := by
  obtain ⟨added, entered⟩ := enters
  exact ⟨added, entered.owners, entered.kinds, entered.accounts⟩

end Enters

theorem alloc_entered {vm after : Vm} {owner : Owner} {amount : Nat} {range : Range}
    (ran : vm.alloc owner amount = .ok (range, after)) : Entered (· = owner) vm [(owner, range)] after := by
  obtain ⟨⟨found, pmm⟩, allocated, rest⟩ := bind_ok ran
  obtain ⟨rfl, rfl⟩ := Prod.mk.inj (Except.ok.inj rest)
  refine ⟨rfl, by simp, fun initial live sized accounts => ?_⟩
  exact accounts.take (Pmm.pmmAlloc_ok (accounts.sized sized) allocated).1

theorem vmmGetPmlAlloc_enters {vm after : Vm} {pml index : Nat} {isUser : Bool} {range : Range}
    (ran : vmmGetPmlAlloc vm pml index isUser = .ok (range, after)) : Enters (· = .table) vm after := by
  unfold vmmGetPmlAlloc at ran
  dsimp only at ran
  split at ran
  next =>
    obtain ⟨-, rfl⟩ := Prod.mk.inj (Except.ok.inj ran)
    exact .refl _ _
  next =>
    obtain ⟨⟨frame, middle⟩, allocated, ran⟩ := bind_ok ran
    obtain ⟨-, -, rest⟩ := bind_ok ran
    obtain ⟨-, rfl⟩ := Prod.mk.inj (Except.ok.inj rest)
    exact Enters.memory ⟨_, alloc_entered allocated⟩ _

theorem vmmMapPage_enters {vm after : Vm} {pml virt phys : Nat} {isUser : Bool}
    (ran : vmmMapPage vm pml virt phys isUser = .ok after) : Enters (· = .table) vm after := by
  obtain ⟨⟨pml3, vm3⟩, first, ran⟩ := bind_ok ran
  obtain ⟨⟨pml2, vm2⟩, second, ran⟩ := bind_ok ran
  obtain ⟨⟨pml1, vm1⟩, third, rest⟩ := bind_ok ran
  obtain rfl := Except.ok.inj rest
  have descent := ((vmmGetPmlAlloc_enters first).trans (vmmGetPmlAlloc_enters second)).trans
    (vmmGetPmlAlloc_enters third)
  exact descent.memory _

theorem vmmMapRange_enters {vm after : Vm} {pml : Nat} {virt phys : Range} {isUser : Bool}
    (ran : vmmMapRange vm pml virt phys isUser = .ok after) : Enters (· = .table) vm after := by
  obtain ⟨⟨⟩, -, ran⟩ := bind_ok ran
  refine foldlM_keeps (fun state index next _ kept turn => ?_) (.refl _ vm) ran
  exact kept.trans (vmmMapPage_enters turn)

theorem vmmSpaceCreate_entered {vm after : Vm} {pml : Nat} (ran : vmmSpaceCreate vm = .ok (pml, after)) :
    ∃ range, pml = mmapPhysToIo range.base ∧ 0 < range.length ∧ Entered (· = .root) vm [(.root, range)] after ∧
      ∃ middle, vm.alloc .root pageSize = .ok (range, middle) := by
  obtain ⟨⟨range, middle⟩, allocated, ran⟩ := bind_ok ran
  obtain ⟨⟨⟩, positive, rest⟩ := bind_ok ran
  obtain ⟨rfl, rfl⟩ := Prod.mk.inj (Except.ok.inj rest)
  have entered := alloc_entered allocated
  exact ⟨range, rfl, check_ok positive, ⟨entered.owners, entered.kinds, entered.accounts⟩, middle, allocated⟩

/-- What the heap may take: its blocks, and tables to map them. -/
def HeapOwner (owner : Owner) : Prop := owner = .heap ∨ owner = .table

theorem liballocAlloc_enters {kernel after : Kernel} {size pointer : Nat}
    (ran : liballocAlloc kernel size = .ok (pointer, after)) :
    Enters HeapOwner kernel.vm after.vm ∧ after.sched = kernel.sched := by
  obtain ⟨space, -, ran⟩ := bind_ok ran
  obtain ⟨⟨range, vm⟩, allocated, ran⟩ := bind_ok ran
  obtain ⟨⟨⟩, -, ran⟩ := bind_ok ran
  obtain ⟨mapped, mapping, rest⟩ := bind_ok ran
  obtain ⟨rfl, rfl⟩ := Prod.mk.inj (Except.ok.inj rest)
  refine ⟨?_, rfl⟩
  have block : Enters HeapOwner kernel.vm vm := Enters.mono ⟨_, alloc_entered allocated⟩ fun _ => .inl
  exact block.trans ((vmmMapRange_enters mapping).mono fun _ => .inr)

/-- A pointer is no frame number: giving a block back clears no bit at all, or
one far outside the bitmap. -/
theorem liballocFree_nothing {initial : Pmm} {kernel after : Kernel} {ptr pages : Nat}
    (ledger : Ledger initial kernel.vm) {entry : Owner × Range} (member : entry ∈ kernel.vm.owners)
    (pointer : mmapPhysToIo entry.2.base = ptr) (ran : liballocFree kernel ptr pages = .ok after) :
    after = kernel := by
  obtain ⟨pmm, freed, rest⟩ := bind_ok ran
  obtain rfl := Except.ok.inj rest
  have bound := ledger.bound
  have inside := ledger.accounts.bound entry.2 (List.mem_map_of_mem member)
  have size := ledger.accounts.size
  have high : ptr = entry.2.base + mmapIoBase := by
    rw [← pointer]
    unfold mmapPhysToIo
    simp only [wrap, mmapIoBase]
    omega
  have none : pages / pageSize = 0 := by
    by_contra some
    obtain ⟨count, counted⟩ := Nat.exists_eq_succ_of_ne_zero some
    unfold pmmFree pmmRangeUnused pmmRange at freed
    dsimp only at freed
    rw [counted, List.range_succ_eq_map, List.foldlM_cons] at freed
    obtain ⟨_, first, -⟩ := bind_ok freed
    obtain ⟨⟨⟩, fits, -⟩ := bind_ok first
    have := check_ok fits
    simp only [high, pageSize, mmapIoBase, wrap] at this
    omega
  unfold pmmFree pmmRangeUnused pmmRange at freed
  dsimp only at freed
  rw [none] at freed
  obtain rfl := Except.ok.inj freed
  rfl

/-- What one thing liballoc does means for the allocator. -/
theorem heapAct_enters {initial : Pmm} {kernel after : Kernel} {action : HeapAction} (ledger : Ledger initial kernel.vm)
    (ran : heapAct kernel action = .ok after) :
    Enters HeapOwner kernel.vm after.vm ∧ after.sched = kernel.sched ∧
      (action.allocates = false → after.vm.owners = kernel.vm.owners ∧ after.vm.pmm = kernel.vm.pmm) := by
  cases action with
  | alloc size =>
    obtain ⟨⟨pointer, grown⟩, allocated, rest⟩ := bind_ok ran
    obtain rfl := Except.ok.inj rest
    obtain ⟨enters, same⟩ := liballocAlloc_enters allocated
    exact ⟨enters, same, nofun⟩
  | free ptr pages =>
    obtain ⟨⟨⟩, known, freed⟩ := bind_ok ran
    obtain ⟨entry, member, holds⟩ := List.any_eq_true.mp (check_ok known)
    simp only [Bool.and_eq_true, beq_iff_eq] at holds
    obtain rfl := liballocFree_nothing ledger member holds.2 freed
    exact ⟨.refl _ _, rfl, fun _ => ⟨rfl, rfl⟩⟩
  | write place value =>
    obtain ⟨⟨⟩, -, rest⟩ := bind_ok ran
    obtain rfl := Except.ok.inj rest
    exact ⟨(Enters.refl _ _).memory _, rfl, fun _ => ⟨rfl, rfl⟩⟩

theorem HeapCall.run_enters {initial : Pmm} {kernel after : Kernel} {call : HeapCall}
    (ledger : Ledger initial kernel.vm) (ran : call.run kernel = .ok after) :
    Enters HeapOwner kernel.vm after.vm ∧ after.sched = kernel.sched := by
  have step (state : Kernel) (action : HeapAction) (next : Kernel) (_ : action ∈ call.actions)
      (kept : Enters HeapOwner kernel.vm state.vm ∧ state.sched = kernel.sched)
        (turn : heapAct state action = .ok next) :
      Enters HeapOwner kernel.vm next.vm ∧ next.sched = kernel.sched := by
    obtain ⟨enters, same, -⟩ := heapAct_enters (kept.1.ledger ledger) turn
    exact ⟨kept.1.trans enters, same.trans kept.2⟩
  exact foldlM_keeps step ⟨.refl _ _, rfl⟩ ran

theorem kmalloc_enters {initial : Pmm} {kernel after : Kernel} {count pointer : Nat} {call : HeapCall}
    (ledger : Ledger initial kernel.vm) (ran : kmalloc kernel count call = .ok (pointer, after)) :
    Enters HeapOwner kernel.vm after.vm ∧ after.sched = kernel.sched ∧ pointer = call.pointer := by
  obtain ⟨middle, called, ran⟩ := bind_ok ran
  obtain ⟨⟨⟩, -, rest⟩ := bind_ok ran
  obtain ⟨rfl, rfl⟩ := Prod.mk.inj (Except.ok.inj rest)
  obtain ⟨enters, same⟩ := HeapCall.run_enters ledger called
  exact ⟨enters, same, rfl⟩

theorem kcalloc_enters {initial : Pmm} {kernel after : Kernel} {count pointer : Nat} {call : HeapCall}
    (ledger : Ledger initial kernel.vm) (ran : kcalloc kernel count call = .ok (pointer, after)) :
    Enters HeapOwner kernel.vm after.vm ∧ after.sched = kernel.sched ∧ pointer = call.pointer := by
  obtain ⟨⟨ptr, middle⟩, called, rest⟩ := bind_ok ran
  obtain ⟨rfl, rfl⟩ := Prod.mk.inj (Except.ok.inj rest)
  obtain ⟨enters, same, pointer⟩ := kmalloc_enters ledger called
  exact ⟨enters.memory _, same, pointer⟩

/-- Growing an array takes memory only when it is full. -/
theorem growVec_enters {T : Type} {initial : Pmm} {kernel after : Kernel} {vec : Vec T} {memsz : Nat}
    {call : HeapCall} {answer : Option Nat} (ledger : Ledger initial kernel.vm)
    (ran : growVec kernel vec memsz call = .ok (answer, after)) :
    (Enters HeapOwner kernel.vm after.vm ∧ after.sched = kernel.sched) ∧
      (vec.length + 1 > vec.capacity ∧ answer = some call.pointer ∨ ¬ vec.length + 1 > vec.capacity ∧
        answer = none) := by
  unfold growVec at ran
  split at ran
  next full =>
    obtain ⟨⟨ptr, larger⟩, called, rest⟩ := bind_ok ran
    obtain ⟨rfl, rfl⟩ := Prod.mk.inj (Except.ok.inj rest)
    obtain ⟨enters, same, rfl⟩ := kmalloc_enters ledger called
    exact ⟨⟨enters, same⟩, .inl ⟨full, rfl⟩⟩
  next fits =>
    obtain ⟨rfl, rfl⟩ := Prod.mk.inj (Except.ok.inj ran)
    exact ⟨⟨.refl _ _, rfl⟩, .inr ⟨fits, rfl⟩⟩

/-- Freeing takes nothing and, by the above, gives nothing back either. -/
theorem kfree_keeps {initial : Pmm} {kernel after : Kernel} {ptr : Nat} {call : HeapCall}
    (ledger : Ledger initial kernel.vm) (ran : kfree kernel ptr call = .ok after) :
    after.vm.owners = kernel.vm.owners ∧ after.vm.pmm = kernel.vm.pmm ∧ after.sched = kernel.sched := by
  unfold kfree at ran
  split at ran
  next =>
    obtain rfl := Except.ok.inj ran
    exact ⟨rfl, rfl, rfl⟩
  next =>
    obtain ⟨⟨⟩, checked, ran⟩ := bind_ok ran
    have none := List.all_eq_true.mp (check_ok checked)
    have step (state : Kernel) (action : HeapAction) (next : Kernel) (member : action ∈ call.actions)
        (kept : state.vm.owners = kernel.vm.owners ∧ state.vm.pmm = kernel.vm.pmm ∧ state.sched = kernel.sched)
        (turn : heapAct state action = .ok next) :
        next.vm.owners = kernel.vm.owners ∧ next.vm.pmm = kernel.vm.pmm ∧ next.sched = kernel.sched := by
      have quiet : action.allocates = false := by simpa using none action member
      have same : Ledger initial state.vm := ⟨ledger.bound, by rw [kept.1, kept.2.1]; exact ledger.accounts⟩
      obtain ⟨-, sched, keeps⟩ := heapAct_enters same turn
      obtain ⟨owners, pmm⟩ := keeps quiet
      exact ⟨owners.trans kept.1, pmm.trans kept.2.1, sched.trans kept.2.2⟩
    exact foldlM_keeps step ⟨rfl, rfl, rfl⟩ ran

/-- What the segments of a module may take. -/
def SegmentOwner (pml : Nat) (owner : Owner) : Prop := owner = .segment pml ∨ owner = .table

theorem loadSegment_enters {elf : Range} {pml phdr : Nat} {vm after : Vm}
    (ran : (loadSegment elf pml phdr vm).outcome = .ok after) :
    Enters (SegmentOwner pml) vm after ∧
      ∃ addr, addr.length ≠ 0 ∧ ∃ given, Entered (· = .segment pml) vm [(.segment pml, addr)] given ∧ Enters
        (· = .table) given after := by
  obtain ⟨addr, given, mapped, allocated, some, mapping, rfl⟩ := loadSegment_ok ran
  have block : Enters (SegmentOwner pml) vm given := Enters.mono ⟨_, alloc_entered allocated⟩ fun _ => .inl
  have tables := vmmMapRange_enters mapping
  exact ⟨(block.trans (tables.mono fun _ => .inr)).memory _, addr, some, given, alloc_entered allocated,
    tables.memory _⟩

theorem loadHeader_enters {elf : Range} {pml phdr type : Nat} {vm after : Vm}
    (ran : (loadHeader elf pml phdr type vm).outcome = .ok after) : Enters (SegmentOwner pml) vm after := by
  unfold loadHeader at ran
  split at ran
  next => exact (loadSegment_enters ran).1
  next =>
    obtain rfl := Except.ok.inj ran
    exact .refl _ _

theorem loadSegments_enters {elf : Range} {pml fuel phdr : Nat} {vm after : Vm}
    (ran : (loadSegments elf pml fuel phdr vm).outcome = .ok after) : Enters (SegmentOwner pml) vm after :=
  loadSegments_keeps (fun _ _ _ _ kept turn => kept.trans (loadHeader_enters turn)) (.refl _ vm) ran

/-- What a process has of its own from its creation on. -/
structure Made (kind : Owner → Prop) (vm : Vm) (process : Process) (after : Vm) : Prop where
  enters : Enters kind vm after
  entries : List.Subperm ((.stack process.pml, process.stack) :: vm.owners) after.owners
  stack : process.stack.length ≠ 0

theorem taskInit_made {initial : Pmm} {kernel after : Kernel} {pml rip : Nat} {block bstack : HeapCall}
    {process : Process} (ledger : Ledger initial kernel.vm)
    (ran : taskInit kernel pml rip block bstack = .ok (process, after)) :
    process = newTask pml rip bstack.pointer process.stack ∧ after.sched = kernel.sched ∧
      Made (fun owner => HeapOwner owner ∨ owner = .stack pml) kernel.vm process after.vm := by
  obtain ⟨_, zeroed, pointer, grown, stack, given, mapped, first, second, allocated, some, mapping, rfl, rfl⟩ :=
    taskInit_ok ran
  obtain ⟨heap, same, -⟩ := kcalloc_enters ledger first
  obtain ⟨more, same', rfl⟩ := kmalloc_enters (heap.ledger ledger) second
  have entry := alloc_entered allocated
  obtain ⟨tables, entered⟩ := vmmMapRange_enters mapping
  refine ⟨rfl, same'.trans same, ?_, ?_, some⟩
  · have stack := Enters.mono ⟨_, entry⟩ fun owner => Or.inr (a := HeapOwner owner)
    exact (((heap.trans more).mono fun _ => .inl).trans stack).trans (Enters.mono ⟨_, entered⟩ fun _ same =>
      .inl (.inr same))
  · obtain ⟨blocks, entered'⟩ := heap.trans more
    have owners : mapped.owners = tables ++ ((.stack pml, stack) :: (blocks ++ kernel.vm.owners)) := by
      rw [entered.owners, entry.owners, entered'.owners]
      rfl
    rw [owners]
    exact (List.Sublist.cons_cons _ (List.sublist_append_right _ _)).subperm.trans
      (List.sublist_append_right _ _).subperm

/-- A loaded process has a PML4 and a user stack that are new in the ledger. -/
theorem loadElfModule_made {initial : Pmm} {kernel after : Kernel} {elf : Range} {block bstack : HeapCall}
    {process : Process} (ledger : Ledger initial kernel.vm)
    (ran : (loadElfModule kernel elf block bstack).outcome = .ok (process, after)) :
    Enters (fun _ => True) kernel.vm after.vm ∧ after.sched = kernel.sched ∧
      List.Subperm ((.stack process.pml, process.stack) :: (.root,
        ⟨vmmSwitchSpace process.pml, pageSize⟩) :: kernel.vm.owners)
        after.vm.owners ∧
      process.stack.length ≠ 0 ∧ ∃ rip, process = newTask process.pml rip bstack.pointer process.stack := by
  obtain ⟨pml, vm, loaded, made, loop, init⟩ := loadElfModule_ok ran
  obtain ⟨root, rfl, positive, created, _, allocated⟩ := vmmSpaceCreate_entered made
  have segments := loadSegments_enters loop
  have before := created.ledger ledger
  obtain ⟨shape, same, task⟩ := taskInit_made (segments.ledger before) init
  have pml : process.pml = mmapPhysToIo root.base := by
    rw [shape]
    rfl
  obtain ⟨-, aligned, enough, tight⟩ := alloc_length ledger.pmm_sized allocated (by omega)
  have length : root.length = pageSize := by
    simp only [pageSize] at enough tight ⊢
    omega
  have base : vmmSwitchSpace process.pml = root.base := by
    have member : root ∈ vm.owners.map Prod.snd := by
      rw [created.owners]
      simp
    have inside := before.accounts.bound root member
    have bound := ledger.bound
    rw [pml]
    exact phys_io _ (by omega)
  refine ⟨?_, same, ?_, task.stack, _, pml ▸ shape⟩
  · have any {kind : Owner → Prop} {vm after : Vm} (enters : Enters kind vm after) : Enters (fun _ => True) vm after :=
      enters.mono fun _ _ => trivial
    exact ((any ⟨_, created⟩).trans (any segments)).trans (any task.enters)
  · obtain ⟨added, entered⟩ := segments
    rw [base, ← length]
    refine List.Subperm.trans ?_ task.entries
    rw [List.subperm_cons, entered.owners, created.owners]
    exact (List.sublist_append_right _ _).subperm

theorem Ledger.release {initial : Pmm} {vm after : Vm} {owner : Owner} {range : Range} (ledger : Ledger initial vm)
    (member : (owner, range) ∈ vm.owners) (ran : vm.free owner range = .ok after) :
    Ledger initial after ∧ after.owners = vm.owners.erase (owner, range) ∧ after.mem = vm.mem := by
  obtain ⟨pmm, freed, rest⟩ := bind_ok ran
  obtain rfl := Except.ok.inj rest
  have order := (List.perm_cons_erase member).map Prod.snd
  obtain ⟨given, same, accounts⟩ := (ledger.accounts.perm order).give ledger.sized
  obtain rfl := Except.ok.inj (freed.symm.trans same)
  exact ⟨⟨ledger.bound, accounts⟩, rfl, rfl⟩

/-- A page somebody holds stays taken while its entry stays. -/
theorem Ledger.taken {initial : Pmm} {vm after : Vm} (ledger : Ledger initial vm) (ledger' : Ledger initial after)
    (kept : ∀ entry ∈ vm.owners, entry ∈ after.owners) {page : Nat} (set : isSetPmm vm.pmm page = true) :
    isSetPmm after.pmm page = true := by
  rw [Pmm.isSetPmm_eq, ledger.accounts.bits] at set
  rw [Pmm.isSetPmm_eq, ledger'.accounts.bits]
  rcases set with start | ⟨range, member, inside⟩
  · exact .inl start
  · obtain ⟨entry, among, rfl⟩ := List.mem_map.mp member
    exact .inr ⟨entry.2, List.mem_map_of_mem (kept entry among), inside⟩

/-- Two entries that stand side by side share no page. -/
theorem Ledger.apart {initial : Pmm} {vm : Vm} (ledger : Ledger initial vm) {entry : Owner × Range}
    {rest : List (Owner × Range)} (order : vm.owners.Perm (entry :: rest)) {other : Owner × Range}
    (member : other ∈ rest) {page : Nat} (inside : page ∈ entry.2.pages) : page ∉ other.2.pages := by
  have accounts := ledger.accounts.perm (order.map Prod.snd)
  have first := (List.pairwise_cons.mp accounts.apart).1
  exact first other.2 (List.mem_map_of_mem member) page inside

/-- Giving a block back writes to the heap's blocks only. -/
theorem kfree_bytes {initial : Pmm} {kernel after : Kernel} {ptr : Nat} {call : HeapCall}
    (ledger : Ledger initial kernel.vm) (ran : kfree kernel ptr call = .ok after) {place : Nat}
    (outside : heapOwned kernel.vm place = false) :
    after.vm.mem place = kernel.vm.mem place := by
  unfold kfree at ran
  split at ran
  next =>
    obtain rfl := Except.ok.inj ran
    rfl
  next =>
    obtain ⟨⟨⟩, checked, ran⟩ := bind_ok ran
    have none := List.all_eq_true.mp (check_ok checked)
    have step (state : Kernel) (action : HeapAction) (next : Kernel) (member : action ∈ call.actions)
        (kept : state.vm.owners = kernel.vm.owners ∧ state.vm.pmm = kernel.vm.pmm ∧ state.vm.mem place =
          kernel.vm.mem place)
        (turn : heapAct state action = .ok next) :
        next.vm.owners = kernel.vm.owners ∧ next.vm.pmm = kernel.vm.pmm ∧ next.vm.mem place = kernel.vm.mem place := by
      have quiet : action.allocates = false := by simpa using none action member
      have same : Ledger initial state.vm := ⟨ledger.bound, by rw [kept.1, kept.2.1]; exact ledger.accounts⟩
      obtain ⟨-, -, keeps⟩ := heapAct_enters same turn
      obtain ⟨owners, pmm⟩ := keeps quiet
      refine ⟨owners.trans kept.1, pmm.trans kept.2.1, ?_⟩
      cases action with
      | alloc size => cases quiet
      | free ptr pages =>
        obtain ⟨⟨⟩, -, freed⟩ := bind_ok turn
        obtain ⟨given, -, rest⟩ := bind_ok freed
        obtain rfl := Except.ok.inj rest
        exact kept.2.2
      | write target value =>
        obtain ⟨⟨⟩, owned, rest⟩ := bind_ok turn
        obtain rfl := Except.ok.inj rest
        have inside := check_ok owned
        have different : place ≠ target := by
          rintro rfl
          unfold heapOwned at inside outside
          rw [kept.1, outside] at inside
          cases inside
        exact (Function.update_of_ne different _ _).trans kept.2.2
    exact (foldlM_keeps step ⟨rfl, rfl, rfl⟩ ran).2.2

def stackEntry (process : Process) : Owner × Range := (.stack process.pml, process.stack)

def rootEntry (process : Process) : Owner × Range := (.root, ⟨vmmSwitchSpace process.pml, pageSize⟩)

/-- What `task_slayer` does to the frames when a process's entries are in the ledger. -/
structure Reaped (kernel : Kernel) (process : Process) (after : Kernel) : Prop where
  stack : stackEntry process ∈ kernel.vm.owners
  root : rootEntry process ∈ kernel.vm.owners.erase (stackEntry process)
  left : after.vm.owners = (kernel.vm.owners.erase (stackEntry process)).erase (rootEntry process)
  apart : ∀ entry ∈ after.vm.owners, ∀ page ∈ entry.2.pages, page ∉ process.stack.pages ∧
    page ≠ vmmSwitchSpace process.pml / pageSize
  cleared : ∀ page, isSetPmm kernel.vm.pmm page = true → isSetPmm after.vm.pmm page = false →
    page ∈ process.stack.pages ∨ page = vmmSwitchSpace process.pml / pageSize
  zeroed : ∀ place, after.vm.mem place ≠ kernel.vm.mem place →
    place / pageSize = vmmSwitchSpace process.pml / pageSize ∨ heapOwned kernel.vm place = true

/-- The single page of a PML4. -/
private theorem rootEntry_pages {process : Process} {page : Nat} :
    page ∈ (rootEntry process).2.pages ↔ page = vmmSwitchSpace process.pml / pageSize := by
  simp only [rootEntry, Range.mem_pages, pageSize]
  omega

theorem reap_ok {initial : Pmm} {kernel after : Kernel} {process : Process} {bstack mailbox : HeapCall}
    {rest : List (Owner × Range)} (ledger : Ledger initial kernel.vm)
    (held : List.Subperm (stackEntry process :: rootEntry process :: rest) kernel.vm.owners)
    (ran : reap kernel process bstack mailbox = .ok after) :
    Reaped kernel process after ∧ Ledger initial after.vm ∧ after.sched = kernel.sched ∧
      List.Subperm rest after.vm.owners := by
  obtain ⟨stackless, stackFreed, ran⟩ := bind_ok ran
  obtain ⟨unstacked, stackGiven, ran⟩ := bind_ok ran
  obtain ⟨rootless, destroyed, mailFreed⟩ := bind_ok ran
  -- the kernel stack
  obtain ⟨owners1, pmm1, sched1⟩ := kfree_keeps ledger stackFreed
  have ledger1 : Ledger initial stackless.vm := ⟨ledger.bound, by rw [owners1, pmm1]; exact ledger.accounts⟩
  -- the user stack
  have stack : stackEntry process ∈ kernel.vm.owners := held.subset (by simp)
  obtain ⟨ledger2, owners2, mem2⟩ := ledger1.release (owners1 ▸ stack) stackGiven
  rw [owners1] at owners2
  have held := Holdings.give_back held
  -- the PML4
  have root : rootEntry process ∈ kernel.vm.owners.erase (stackEntry process) := held.subset List.mem_cons_self
  have zeroed : Ledger initial { unstacked with mem := memset unstacked.mem process.pml 0 pageSize } :=
    ⟨ledger2.bound, ledger2.accounts⟩
  have member : (Owner.root, Range.mk (mmapIoToPhys process.pml) pageSize) ∈ unstacked.owners := by
    rw [owners2]
    exact root
  obtain ⟨ledger3, owners3, mem3⟩ := zeroed.release member destroyed
  dsimp only at owners3 mem3
  rw [owners2] at owners3
  have held := Holdings.give_back held
  -- the mailbox
  obtain ⟨owners4, pmm4, sched4⟩ := kfree_keeps ledger3 mailFreed
  dsimp only at owners4 pmm4 sched4
  have left : after.vm.owners = (kernel.vm.owners.erase (stackEntry process)).erase (rootEntry process) :=
    owners4.trans owners3
  have ledger4 : Ledger initial after.vm := ⟨ledger3.bound, by rw [owners4, pmm4]; exact ledger3.accounts⟩
  have order : kernel.vm.owners.Perm (stackEntry process :: rootEntry process :: after.vm.owners) := by
    rw [left]
    exact (List.perm_cons_erase stack).trans ((List.perm_cons_erase root).cons _)
  refine ⟨⟨stack, root, left, ?_, ?_, ?_⟩, ledger4, sched4.trans sched1, by rw [left]; exact held⟩
  · intro entry among page inside
    refine ⟨fun clash => ledger.apart order (List.mem_cons_of_mem _ among) clash inside, fun clash => ?_⟩
    have swapped := order.trans (List.Perm.swap _ _ _)
    exact ledger.apart swapped (List.mem_cons_of_mem _ among) (rootEntry_pages.mpr clash) inside
  · intro page set clear
    rw [Pmm.isSetPmm_eq, ledger.accounts.bits] at set
    rw [Pmm.isSetPmm_eq] at clear
    have not := mt (ledger4.accounts.bits page).mpr (by simp [clear])
    rcases set with start | ⟨range, among, inside⟩
    · exact absurd (.inl start) not
    · obtain ⟨entry, member, rfl⟩ := List.mem_map.mp among
      rcases List.mem_cons.mp (order.subset member) with rfl | member
      · exact .inl inside
      · rcases List.mem_cons.mp member with rfl | member
        · exact .inr (rootEntry_pages.mp inside)
        · exact absurd (.inr ⟨entry.2, List.mem_map_of_mem member, inside⟩) not
  · intro place changed
    by_contra neither
    obtain ⟨elsewhere, foreign⟩ := not_or.mp neither
    have foreign := Bool.eq_false_iff.mpr foreign
    have base := (ledger.accounts.aligned (rootEntry process).2 (List.mem_map_of_mem (List.mem_of_mem_erase root))).1
    have foreign' : heapOwned rootless place = false := by
      unfold heapOwned at foreign ⊢
      rw [owners3]
      rw [List.any_eq_false] at foreign ⊢
      exact fun entry member => foreign entry (List.mem_of_mem_erase (List.mem_of_mem_erase member))
    have kept : memset unstacked.mem process.pml 0 pageSize place = unstacked.mem place := by
      unfold memset
      apply Bytes.fill_apart
      simp only [rootEntry, vmmSwitchSpace, pageSize] at base elsewhere ⊢
      omega
    apply changed
    rw [kfree_bytes ledger3 mailFreed foreign', mem3, kept, mem2, kfree_bytes ledger stackFreed foreign]

theorem vmmInitEntry_enters {vm after : Vm} {mmap : MmapEntry} (ran : vmmInitEntry vm mmap = .ok after) :
    Enters (· = .table) vm after := by
  unfold vmmInitEntry at ran
  dsimp only at ran
  split at ran
  next =>
    obtain ⟨middle, first, last⟩ := bind_ok ran
    exact (vmmMapRange_enters first).trans (vmmMapRange_enters last)
  next =>
    obtain ⟨middle, first, last⟩ := bind_ok ran
    obtain rfl := Except.ok.inj first
    exact vmmMapRange_enters last

theorem vmmInit_enters {mem : Bytes} {pmm : Pmm} {handover : Handover} {vm : Vm} (ran : vmmInit mem pmm handover = .ok vm) :
    Enters (fun owner => owner = .root ∨ owner = .table) ⟨mem, pmm, 0, []⟩ vm := by
  obtain ⟨⟨range, root⟩, allocated, ran⟩ := bind_ok ran
  obtain ⟨⟨⟩, -, ran⟩ := bind_ok ran
  obtain ⟨low, mapped, ran⟩ := bind_ok ran
  have first : Enters (fun owner => owner = .root ∨ owner = .table) _ root := Enters.mono ⟨_, alloc_entered allocated⟩ fun _ => .inl
  have zeroed : Enters (fun owner => owner = .root ∨ owner = .table) ⟨mem, pmm, 0, []⟩
      { root with mem := memset root.mem (mmapPhysToIo range.base) 0 pageSize, kernelPml4 := mmapPhysToIo range.base } := by
    obtain ⟨added, entered⟩ := first
    exact ⟨added, entered.owners, entered.kinds, entered.accounts⟩
  refine foldlM_keeps (fun state mmap next _ kept turn => ?_) (zeroed.trans ((vmmMapRange_enters mapped).mono fun _ => .inr)) ran
  exact kept.trans ((vmmInitEntry_enters turn).mono fun _ => .inr)

theorem vmmInit_ledger {mem : Bytes} {pmm : Pmm} {handover : Handover} {vm : Vm} (bound : pmm.bitmapSize ≤ 2 ^ 34)
    (ran : vmmInit mem pmm handover = .ok vm) : Ledger pmm vm := (vmmInit_enters ran).ledger ⟨bound, .start pmm⟩

/-- The bitmap is no larger than the memory map asks for. -/
theorem pmmInit_bound {handover edited : Handover} {pmm : Pmm} (fits : handover.Fits)
    (ran : pmmInit handover = .ok (pmm, edited)) : pmm.bitmapSize ≤ 2 ^ 34 := by
  obtain ⟨last, same, size⟩ := Pmm.pmmInit_size ran
  have low := fits.low last (List.mem_of_getLast? same)
  rw [size]
  simp only [wrap, pageSize]
  omega

end Navy.Paging
