import Navy.Proofs.UserRuns

/-! What a message call may change. No pointer is checked, so this is up to the
caller: given a pointer into its own memory, a call keeps to that, to one mailbox
and to what growing the mailbox takes. -/

namespace Navy
open Outcome Paging

/-- Where growing a mailbox may write: to blocks of the heap, to frames that were
free, and to page tables. -/
def System.Spare (system : System) (place : Nat) : Prop :=
  heapOwned system.kernel.vm place = true ∨ Available system.kernel.vm.pmm (place / 4096) ∨
    ∃ table, IsTable system.Space system.kernel.vm.mem table ∧ place / 4096 = table / 4096

/-- A process whose mailbox has to grow for the next message. -/
def System.Full (system : System) (pid : Nat) : Prop :=
  ∃ target, system.kernel.sched.processes.get pid = .ok target ∧ target.mailbox.length + 1 > target.mailbox.capacity

/-- A call changes nothing but `count` bytes from the pointer on, which are the
caller's, the mailbox of one process, and what growing that mailbox takes. -/
structure Confined (system : System) (rbx count pid : Nat) (grows : Prop) (after : System) : Prop where
  bytes : ∀ place, after.kernel.vm.mem place ≠ system.kernel.vm.mem place → system.Behind rbx count place ∨ grows ∧
    system.Spare place
  frames : ∀ (process : Process) (place : Nat), process.Owns system.kernel.vm place →
    after.kernel.vm.mem place ≠ system.kernel.vm.mem place →
    system.Behind rbx count place ∧ ∀ caller, schedCurrentProcess system.kernel.sched = .ok caller →
      process.pml = caller.pml
  translations : ∀ space virt, system.Space space → UserHalf virt →
    walk after.kernel.vm.mem space virt = walk system.kernel.vm.mem space virt
  mailbox : ∃ process mailbox, system.kernel.sched.processes.get pid = .ok process ∧
    after.kernel.sched.processes = system.kernel.sched.processes.modify pid { process with mailbox }
  rest : after.kernel.sched.currentPid = system.kernel.sched.currentPid ∧ after.kernel.sched.cr3 =
    system.kernel.sched.cr3 ∧
    after.loaded = system.loaded ∧ after.torn = system.torn

/-- Entries of the ledger that share a page are one entry. -/
theorem Paging.Ledger.same {initial : Pmm} {vm : Vm} (ledger : Ledger initial vm) {entry other : Owner × Range}
    (member : entry ∈ vm.owners) (member' : other ∈ vm.owners) {page : Nat} (inside : page ∈ entry.2.pages)
    (inside' : page ∈ other.2.pages) :
    entry = other := by
  by_contra different
  exact ledger.apart (List.perm_cons_erase member)
    ((List.mem_erase_of_ne (Ne.symm different)).mpr member') inside inside'

/-- The machine a send leaves is the one its growing mailbox left. -/
theorem Sending.grown {system middle after : System} {rbx pid : Nat} {call : HeapCall} {stored : Kernel}
    {target : Process} {mailbox : Vec Ipc} {answer : Option Nat}
    (sending : Sending system rbx call stored pid target mailbox answer middle after) :
    ∃ kernel, growVec stored target.mailbox ipcSize call = .ok (answer, kernel) ∧ after.kernel.vm = kernel.vm ∧
      after.loaded = system.loaded ∧
      after.torn = system.torn ∧ after.kernel.sched =
        { kernel.sched with processes := kernel.sched.processes.modify pid { target with mailbox } } := by
  obtain ⟨kernel, growing, rest⟩ := System.expand_ok sending.expands
  refine ⟨kernel, growing, ?_⟩
  rw [sending.returns]
  rcases rest with ⟨-, rfl⟩ | ⟨pointer, -, -, -, rfl⟩
  · exact ⟨rfl, rfl, rfl, rfl⟩
  · exact ⟨rfl, rfl, rfl, rfl⟩

namespace Tended

variable {initial owner : Pmm} {root : Nat} {table : List Process} {system after : System}

/-- Frames of segments and stacks are not spare. -/
theorem unspare (tended : Tended initial owner root table system) {process : Process} {place : Nat}
    (owns : process.Owns system.kernel.vm place) : ¬ system.Spare place := by
  have reserved := tended.live.owns_reserved owns
  rintro (heap | free | ⟨table, isTable, same⟩)
  · obtain ⟨entry, member, kind, inside⟩ := owns
    have other : entry.1 ≠ .heap := by
      rcases kind with segment | stack
      · simp [segment]
      · simp [stack]
    rw [tended.live.sound.ledger.unheaped member other inside] at heap
    cases heap
  · exact reserved.held free
  · rw [← tended.live.space] at isTable
    exact reserved.apart table isTable same

theorem frames (tended : Tended initial owner root table system) {rbx count : Nat} {grows : Prop}
    (lends : system.Lends rbx count)
    (bytes : ∀ place, after.kernel.vm.mem place ≠ system.kernel.vm.mem place → system.Behind rbx count place ∨
      grows ∧ system.Spare place)
    {process : Process} {place : Nat} (owns : process.Owns system.kernel.vm place)
    (changed : after.kernel.vm.mem place ≠ system.kernel.vm.mem place) :
    system.Behind rbx count place ∧ ∀ caller, schedCurrentProcess system.kernel.sched = .ok caller →
      process.pml = caller.pml := by
  have behind := (bytes place changed).resolve_right fun spare => tended.unspare owns spare.2
  refine ⟨behind, fun caller got => ?_⟩
  obtain ⟨current, got', lent⟩ := lends
  obtain rfl := Except.ok.inj (got.symm.trans got')
  obtain ⟨offset, below, same⟩ := behind
  obtain ⟨-, place', same', entry, member, kind, inside⟩ := lent offset below
  rw [tended.installed _ got] at same
  obtain rfl := Option.some.inj (same.symm.trans same')
  obtain ⟨other, member', kind', inside'⟩ := owns
  obtain rfl := tended.live.sound.ledger.same member member' inside inside'
  rcases kind with segment | stack <;> rcases kind' with segment' | stack'
  · exact (Owner.segment.inj (segment.symm.trans segment')).symm
  · cases segment.symm.trans stack'
  · cases stack.symm.trans segment'
  · exact (Owner.stack.inj (stack.symm.trans stack')).symm

/-- The bytes a send changes: the sender's field, and what a full mailbox takes. -/
theorem send_bytes (tended : Tended initial owner root table system) {rbx pid : Nat} {call : HeapCall}
    {stored : Kernel} {target : Process} {mailbox : Vec Ipc} {answer : Option Nat} {middle : System}
    (lends : system.Lends rbx ipcSize)
    (sending : Sending system rbx call stored pid target mailbox answer middle after) {place : Nat}
    (changed : after.kernel.vm.mem place ≠ system.kernel.vm.mem place) :
    system.Behind rbx 8 place ∨ system.Full pid ∧ system.Spare place := by
  obtain ⟨current, -, stores⟩ := sending.stores
  have wrote := tended.stored lends stores
  obtain ⟨isSpace, reserved, -⟩ := tended.lent (lends.less (show 8 ≤ ipcSize by decide))
  obtain ⟨tables, -⟩ := wrote.walks tended.live.sound.spaces reserved
  obtain ⟨-, filled, -⟩ := tended.send lends sending
  obtain ⟨kernel, growing, vm, -⟩ := sending.grown
  have got := sending.got
  rw [wrote.sched] at got
  by_contra neither
  obtain ⟨elsewhere, unspare⟩ := not_or.mp neither
  have kept := wrote.bytes place elsewhere
  apply changed
  rw [vm, ← kept]
  by_cases full : target.mailbox.length + 1 > target.mailbox.capacity
  · have outside : ¬ system.Spare place := fun spare => unspare ⟨⟨target, got, full⟩, spare⟩
    obtain ⟨foreign, outside⟩ := not_or.mp outside
    obtain ⟨held, apart⟩ := not_or.mp outside
    obtain ⟨took, -⟩ := growVec_took filled.live.sound (filled.live.homed filled.live.current) growing
    refine took.moves.bytes place ?_ (fun table isTable clash => apart ⟨table, ?_, clash⟩) ?_
    · dsimp only
      rwa [wrote.vm]
    · rw [← tended.live.space]
      exact (tables table).mp isTable
    · dsimp only
      unfold heapOwned at foreign ⊢
      rw [wrote.vm]
      exact Bool.eq_false_iff.mpr foreign
  · unfold growVec at growing
    rw [if_neg full] at growing
    obtain ⟨-, rfl⟩ := Prod.mk.inj (Except.ok.inj growing)
    rfl

theorem send_confined (tended : Tended initial owner root table system) {rbx pid : Nat} {call : HeapCall}
    {stored : Kernel} {target : Process} {mailbox : Vec Ipc} {answer : Option Nat} {middle : System}
    (lends : system.Lends rbx ipcSize)
    (sending : Sending system rbx call stored pid target mailbox answer middle after) :
    Confined system rbx 8 pid (system.Full pid) after := by
  have fewer := lends.less (show 8 ≤ ipcSize by decide)
  obtain ⟨current, -, stores⟩ := sending.stores
  have wrote := tended.stored lends stores
  obtain ⟨isSpace, reserved, -⟩ := tended.lent fewer
  obtain ⟨-, walks⟩ := wrote.walks tended.live.sound.spaces reserved
  obtain ⟨-, filled, -⟩ := tended.send lends sending
  obtain ⟨kernel, growing, vm, loaded, torn, sched⟩ := sending.grown
  obtain ⟨took, same⟩ := growVec_took filled.live.sound (filled.live.homed filled.live.current) growing
  have got := sending.got
  rw [wrote.sched] at got
  rw [same, wrote.sched] at sched
  have bytes (place : Nat) (changed : after.kernel.vm.mem place ≠ system.kernel.vm.mem place) :
      system.Behind rbx 8 place ∨ system.Full pid ∧ system.Spare place := tended.send_bytes lends sending changed
  refine ⟨bytes, fun process place owns changed => tended.frames fewer bytes owns changed,
    fun space virt isRoot half => ?_, ⟨target, mailbox, got, by rw [sched]⟩, by rw [sched], by rw [sched], loaded, torn⟩
  rw [← tended.live.space] at isRoot
  rw [vm, took.user space virt isRoot half id]
  exact walks space virt isRoot

theorem receive_confined (tended : Tended initial owner root table system) {sync : Bool} {rbx : Nat}
    (lends : system.Lends rbx ipcSize) (ran : system.receiveAt sync rbx = .ok after) :
    Confined system rbx ipcSize system.kernel.sched.currentPid False after := by
  obtain ⟨isSpace, reserved, within⟩ := tended.lent lends
  obtain ⟨sched, -, rest⟩ := System.receiveAt_ok ran
  rcases rest with ⟨rfl, rfl⟩ | ⟨msg, process, mailbox, kernel, got, -, rfl, storing, rfl⟩
  · have ⟨current, got, _⟩ := lends
    have idle : (idleSched sync system.kernel.sched).processes = system.kernel.sched.processes ∧
        (idleSched sync system.kernel.sched).currentPid = system.kernel.sched.currentPid ∧
        (idleSched sync system.kernel.sched).cr3 = system.kernel.sched.cr3 := by
      cases sync <;> exact ⟨rfl, rfl, rfl⟩
    refine ⟨fun place changed => absurd rfl changed, fun process place _ changed => absurd rfl changed,
      fun space virt _ _ => rfl, ⟨current, current.mailbox, got, ?_⟩, idle.2.1, idle.2.2, rfl, rfl⟩
    exact idle.1.trans (Vec.modify_self got).symm
  · have wrote : Wrote (system.Behind rbx ipcSize) { system.kernel with sched := { system.kernel.sched with
        processes := system.kernel.sched.processes.modify system.kernel.sched.currentPid { process with mailbox } } } kernel :=
      (Wrote.refl _ _).storeIpc tended.live.sound.spaces reserved isSpace within storing
    obtain ⟨-, walks⟩ := wrote.walks tended.live.sound.spaces reserved
    have bytes (place : Nat) (changed : kernel.vm.mem place ≠ system.kernel.vm.mem place) :
        system.Behind rbx ipcSize place ∨ False ∧ system.Spare place := by
      by_contra neither
      exact changed (wrote.bytes place (not_or.mp neither).1)
    refine ⟨bytes, fun process place owns changed => tended.frames lends bytes owns changed,
      fun space virt isRoot _ => ?_, ⟨process, mailbox, got, ?_⟩, ?_, ?_, rfl, rfl⟩
    · rw [← tended.live.space] at isRoot
      exact walks space virt isRoot
    · dsimp only
      rw [wrote.sched]
    · dsimp only
      rw [wrote.sched]
    · dsimp only
      rw [wrote.sched]

end Tended

/-- In runs whose programs keep to their own segments and stacks, and hand the
kernel pointers into them, a message call confines itself: to the sender field of
a message that is sent or the whole of one that is received, to the mailbox of
the receiver, and where that has to grow, to what the heap takes for it. -/
theorem ipc_confined {system : System} (run : System.UserRun Careful system) (rbx : Nat) :
    (kernelAddress system.kernel.vm.mem system.kernel.sched.cr3 rbx = none →
      (∀ call after, system.sendAt rbx call ≠ .ok after) ∧
      ∀ sync after, system.receiveAt sync rbx = .ok after → after.kernel.vm = system.kernel.vm) ∧
    (system.Lends rbx ipcSize →
      (∀ call after, system.sendAt rbx call = .ok after →
        ∃ caller filled pid, schedCurrentProcess system.kernel.sched = .ok caller ∧
        system.kernel.store rbx 8 caller.pid = .ok filled ∧ filled.load (wrap (rbx + 8)) 8 = .ok pid ∧
        Confined system rbx 8 pid (system.Full pid) after) ∧
      ∀ sync after, system.receiveAt sync rbx = .ok after →
        Confined system rbx ipcSize system.kernel.sched.currentPid False after) := by
  obtain ⟨initial, owner, root, table, tended⟩ := run_tended run
  refine ⟨fun none => ⟨fun call after ran => ?_, fun sync after ran => ?_⟩, fun lends =>
    ⟨fun call after ran => ?_, fun sync after ran => ?_⟩⟩
  · obtain ⟨stored, pid, target, mailbox, answer, middle, sending⟩ := System.sendAt_ok ran
    obtain ⟨current, -, stores⟩ := sending.stores
    exact store_unmapped none (by decide) stores
  · obtain ⟨sched, -, ⟨-, rfl⟩ | ⟨msg, process, mailbox, kernel, -, -, rfl, storing, -⟩⟩ := System.receiveAt_ok ran
    · rfl
    · obtain ⟨filled, first, -⟩ := bind_ok storing
      exact absurd first (store_unmapped none (by decide))
  · obtain ⟨stored, pid, target, mailbox, answer, middle, sending⟩ := System.sendAt_ok ran
    obtain ⟨caller, got, stores⟩ := sending.stores
    obtain ⟨receiver, named, asked⟩ := sending.asks
    obtain ⟨-, filled, -⟩ := tended.send lends sending
    obtain ⟨rfl, -⟩ := filled.live.valid.by_pid asked
    exact ⟨caller, stored, _, got, stores, named, tended.send_confined lends sending⟩
  · exact tended.receive_confined lends ran

theorem System.enter_returns {system : System} {process : Process}
    (running : schedCurrentProcess system.kernel.sched = .ok process) (alive : process.state = .running)
    (number : system.kernel.sched.currentPid = 1) : system.enter = .ok () := by
  unfold System.enter
  rw [running, ok_bind]
  exact check_true _ ⟨alive, by rw [number]; decide⟩

/-- The heap has a block for the first message of a mailbox. -/
theorem Working.spare {mem : Bytes} {initial : Pmm} {roots : Nat → Prop} {root heap pages : Nat} {vm : Vm}
    (working : Working mem initial roots root heap pages vm) {kernel : Kernel} (owners : kernel.vm.owners = vm.owners) :
    ∃ pointer call, krealloc kernel ipcSize call = .ok (pointer, kernel) ∧ pointer ≠ 0 ∧ pointer ∉
      [mmapPhysToIo (heap + 0x10000)] := by
  have below := working.below
  have owned (offset : Nat) (inside : offset < ipcSize) : heapOwned kernel.vm (heap + 0x18000 + offset) = true := by
    simp only [ipcSize] at inside
    have owned := (working.owned (heap + 0x18000 + offset) (by omega) (by omega)).1
    unfold heapOwned at owned ⊢
    rwa [owners]
  have called := kmalloc_returns (show heap + 0x18000 < 2 ^ 64 by omega) owned
  refine ⟨_, _, called, ?_⟩
  rw [List.mem_singleton]
  unfold mmapPhysToIo
  simp only [wrap, mmapIoBase]
  omega

/-- The first message of a mailbox moves it into a block of its own. -/
theorem System.expand_empty {system : System} {pointer : Nat} {call : HeapCall}
    (called : krealloc system.kernel ipcSize call = .ok (pointer, system.kernel))
    (fresh : pointer ≠ 0 ∧ pointer ∉ system.blocks) :
    ∃ after, system.expand vecInit call = .ok (some pointer, after) ∧ after.kernel = system.kernel ∧
      after.loaded = system.loaded := by
  have size : (vecInit : Vec Ipc).grown * ipcSize = ipcSize := by
    simp only [Vec.grown, vecInit, ipcSize]
    decide
  have grows : growVec system.kernel (vecInit : Vec Ipc) ipcSize call = .ok (some pointer, system.kernel) := by
    unfold growVec
    rw [if_pos (by decide), size, called]
    rfl
  have taken : system.take pointer = .ok { system with blocks := pointer :: system.blocks } := by
    unfold System.take
    rw [check_true _ fresh]
    rfl
  refine ⟨System.give { system with blocks := pointer :: system.blocks } (vecInit : Vec Ipc).pointer, ?_, rfl, rfl⟩
  unfold System.expand
  rw [grows, ok_bind]
  dsimp only
  rw [taken]
  rfl

theorem System.send_returns {system middle : System} {pid : Nat} {call : HeapCall} {target : Process}
    {answer : Option Nat} {msg filled : Ipc} {sched : Sched} (enters : system.enter = .ok ())
    (asked : schedGetByPid system.kernel.sched msg.receiver = .ok (some pid))
    (got : system.kernel.sched.processes.get pid = .ok target)
    (expanded : system.expand target.mailbox call = .ok (answer, middle))
    (sent : syscallIpcsend system.kernel.sched msg answer = .ok (filled, sched))
    (same : middle.kernel = system.kernel) :
    ∃ after, system.act (.send msg call) = .ok after ∧ after.kernel = { system.kernel with sched } := by
  refine ⟨{ middle with kernel := { middle.kernel with sched } }, ?_, by rw [same]⟩
  change system.send msg call = _
  unfold System.send
  rw [enters, ok_bind, asked, ok_bind]
  dsimp only
  rw [got, ok_bind, expanded, ok_bind]
  dsimp only
  rw [same, sent]
  rfl

/-- The first process has a message, and a place for it on its stack. -/
theorem gigabyte_mailed : ∃ system rbx after process, System.UserRun Careful system ∧ system.Lends rbx ipcSize ∧
    system.receiveAt false rbx = .ok after ∧ schedCurrentProcess system.kernel.sched = .ok process ∧
      process.mailbox.length = 1 := by
  obtain ⟨initial, heap, root, fresh, stack, turn, vm, run, turns, working, entry, whole, stacked, -⟩ := gigabyte_turn
  have root' : vmmSwitchSpace (mmapPhysToIo fresh) = fresh := phys_io _ (working.spaces.aligned fresh (.inr rfl)).2
  -- a message to itself
  obtain ⟨pointer, call, called, new⟩ := @Working.spare _ _ _ _ _ _ _ working ⟨turn, vm⟩ rfl
  obtain ⟨process, current, pid, alive, -⟩ := turns.current
  have enters := @System.enter_returns ⟨⟨turn, vm⟩, [], 0, [mmapPhysToIo (heap + 0x10000)],
    []⟩ _ current alive turns.number
  obtain ⟨middle, expanded, same, -⟩ :=
    @System.expand_empty ⟨⟨turn, vm⟩, [], 0, [mmapPhysToIo (heap + 0x10000)], []⟩ _ _ called new
  obtain ⟨asked, target, got, empty⟩ := turns.own
  rw [← empty] at expanded
  obtain ⟨filled, mailed, msg, taken, process, sent, popped, current, alive, pml, length, number, kept⟩ :=
    turns.mails pointer
  obtain ⟨system, mails, kernel⟩ := System.send_returns enters asked got expanded sent same
  have run := run.step (orderly_quiet (fun _ _ other => by cases other) fun _ _ _ other => by cases other) mails
  -- its place
  have lends : system.Lends userStackBase ipcSize := by
    rw [System.Lends, kernel]
    refine ⟨process, current, fun offset inside => ?_⟩
    simp only [ipcSize] at inside
    have aligned := working.ledger.accounts.aligned stack (List.mem_map_of_mem entry)
    refine ⟨by simp only [UserHalf, userStackBase]; omega, stack.base + offset, ?_,
      (.stack (mmapPhysToIo fresh), stack), entry, ?_, ?_⟩
    · rw [pml, root', userAddress_walk (stacked offset (by simp only [kernelStackSize]; omega)) rfl]
      simp only [userStackBase, pageSize, Option.some.injEq]
      omega
    · exact .inr (by rw [pml])
    · exact Range.mem_pages.mpr (by dsimp only; omega)
  obtain ⟨initial, owner, root, table, tended⟩ := run_tended run.user
  obtain ⟨isSpace, reserved, -⟩ := tended.lent lends
  have mapped := lends.mapped tended.installed
  have cr3 : taken.cr3 = system.kernel.sched.cr3 := by
    rw [kernel]
    exact kept
  have current : schedCurrentProcess system.kernel.sched = .ok process := by
    rw [kernel]
    exact current
  have number : system.kernel.sched.currentPid = 1 := by
    rw [kernel]
    exact number
  have enters := System.enter_returns current alive number
  have popped : syscallIpcrcvOneshot system.kernel.sched = .ok (some msg, taken) := by
    rw [kernel]
    exact popped
  rw [← cr3] at isSpace mapped
  obtain ⟨filled, stores⟩ :=
    (Wrote.refl _ { system.kernel with sched := taken }).storeIpc_returns tended.live.sound.spaces reserved isSpace msg
    (by decide) mapped
  refine ⟨system, userStackBase, { system with kernel := filled }, process, run.user, lends, ?_, current, length⟩
  unfold System.receiveAt
  rw [enters, ok_bind]
  change (syscallIpcrcvOneshot _ >>= _) = _
  rw [popped, ok_bind]
  dsimp only
  rw [stores]
  rfl

theorem ipc_confined_received : ∃ system rbx after process, System.UserRun Careful system ∧
    system.receiveAt false rbx = .ok after ∧
    schedCurrentProcess system.kernel.sched = .ok process ∧ process.mailbox.length = 1 ∧
    Confined system rbx ipcSize system.kernel.sched.currentPid False after := by
  obtain ⟨system, rbx, after, process, run, lends, ran, current, length⟩ := gigabyte_mailed
  exact ⟨system, rbx, after, process, run, ran, current, length, ((ipc_confined run rbx).2 lends).2 false after ran⟩

theorem System.sendAt_returns {system middle : System} {rbx receiver pid : Nat} {call : HeapCall}
    {current target : Process} {stored : Kernel} {answer : Option Nat} {msg : Ipc} {mailbox : Vec Ipc}
    (enters : system.enter = .ok ()) (running : schedCurrentProcess system.kernel.sched = .ok current)
    (stores : system.kernel.store rbx 8 current.pid = .ok stored)
    (named : stored.load (wrap (rbx + 8)) 8 = .ok receiver)
    (asked : schedGetByPid stored.sched receiver = .ok (some pid))
    (got : stored.sched.processes.get pid = .ok target)
    (expanded : System.expand { system with kernel := stored } target.mailbox call = .ok (answer, middle))
    (read : middle.kernel.loadIpc rbx = .ok msg) (pushed : vecPush target.mailbox msg answer = .ok mailbox) :
    ∃ after, system.sendAt rbx call = .ok after := by
  unfold System.sendAt
  rw [enters, ok_bind, running, ok_bind, stores, ok_bind, named, ok_bind, asked, ok_bind]
  dsimp only
  rw [got, ok_bind, expanded, ok_bind]
  dsimp only
  rw [read, ok_bind, pushed]
  exact ⟨_, rfl⟩

/-- A send that writes to the kernel's memory: the address is in the direct map, in
a page user mode has no access to, and the call comes back. -/
theorem gigabyte_sends : ∃ system rbx call after, System.Run Orderly system ∧ system.sendAt rbx call = .ok after ∧
    userAddress system.kernel.vm.mem system.kernel.sched.cr3 rbx = none := by
  obtain ⟨initial, heap, root, fresh, stack, turn, vm, run, turns, working, -, -, -, low⟩ := gigabyte_turn
  have cr3 : turn.cr3 = fresh := turns.cr3.trans (phys_io _ (working.spaces.aligned fresh (.inr rfl)).2)
  obtain ⟨process, current, pid, alive, -⟩ := turns.current
  have mapped (offset : Nat) (inside : offset < 4096) : kernelAddress vm.mem turn.cr3
    (wrap (directPage 0x20 + offset)) = some (0x20000 + offset) := by
    rw [cr3]
    exact kernelAddress_direct (by decide) inside low
  have small : directPage 0x20 < 2 ^ 64 := by
    rw [directPage_eq (by decide)]
    decide
  -- the sender
  have reserved (place : Nat) (inside : 0x20000 ≤ place ∧ place < 0x20008) :
      Reserved (fun other => other = root ∨ other = fresh) vm (place / 4096) := (working.foreign place (by omega)).1
  have sender (offset : Nat) (below : offset < 8) : ∃ place,
    kernelAddress vm.mem turn.cr3 (wrap (directPage 0x20 + offset)) = some place ∧
      0x20000 ≤ place ∧ place < 0x20008 := ⟨_, mapped offset (by omega), by omega, by omega⟩
  obtain ⟨stored, stores, wrote⟩ := (Wrote.refl _ (Kernel.mk turn vm)).store_returns working.spaces reserved
    (.inr cr3) process.pid small sender
  have mapped (offset : Nat) (inside : offset < ipcSize) :
      kernelAddress stored.vm.mem stored.sched.cr3 (wrap (directPage 0x20 + offset)) = some (0x20000 + offset) := by
    rw [wrote.address working.spaces reserved (.inr cr3)]
    exact mapped offset (Nat.lt_trans inside (by decide))
  -- the receiver
  have zero : stored.vm.mem.read (0x20000 + 8) 8 = 0 := by
    rw [← Bytes.read_zero (0x20000 + 8) 8]
    refine Bytes.read_congr fun place low high => ?_
    rw [wrote.bytes place (by omega)]
    exact (working.foreign place (by omega)).2
  have named := load_field mapped (show 8 + 8 ≤ ipcSize by decide)
  rw [zero] at named
  have sched : stored.sched = turn := wrote.sched
  obtain ⟨asked, first, got, empty⟩ := turns.kernel
  rw [← sched] at asked got
  -- room for the message
  have owners : stored.vm.owners = vm.owners := by rw [wrote.vm]
  obtain ⟨pointer, block, called, new⟩ := working.spare owners
  obtain ⟨middle, expanded, same, -⟩ :=
    @System.expand_empty ⟨stored, [], 0, [mmapPhysToIo (heap + 0x10000)], []⟩ _ _ called new
  have same : middle.kernel = stored := same
  rw [← empty] at expanded
  rw [← same] at mapped
  obtain ⟨msg, read⟩ := loadIpc_mapped small mapped
  obtain ⟨mailbox, pushed⟩ : ∃ mailbox, vecPush first.mailbox msg (some pointer) = .ok mailbox := by
    rw [empty]
    exact ⟨_, rfl⟩
  have enters := @System.enter_returns ⟨⟨turn, vm⟩, [], 0, [mmapPhysToIo (heap + 0x10000)],
    []⟩ _ current alive turns.number
  obtain ⟨after, sent⟩ := System.sendAt_returns enters current stores named asked got expanded read pushed
  refine ⟨_, directPage 0x20, _, after, run, sent, ?_⟩
  unfold userAddress
  dsimp only
  rw [cr3, low]
  rfl

/-- No pointer is checked. -/
theorem ipc_pointer_unchecked : ¬ ∀ system rbx call after, System.UserRun (fun _ _ => True) system →
    system.sendAt rbx call = .ok after →
    ∃ place, userAddress system.kernel.vm.mem system.kernel.sched.cr3 rbx = some place := by
  intro claim
  obtain ⟨system, rbx, call, after, run, sent, outside⟩ := gigabyte_sends
  obtain ⟨place, here⟩ := claim system rbx call after (run.user.mono fun _ _ _ => trivial) sent
  rw [outside] at here
  cases here

end Navy
