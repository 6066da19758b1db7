import Navy.Proofs.Isolation
import Navy.Proofs.KernelAccess

/-! Runs with programs in them. While these write to nothing but their own
segments and stacks and hand the kernel pointers into them, the machine stays as
it is in runs without them, and CR3 holds the running process's space. -/

namespace Navy
open Outcome Paging

/-- Stores to frames of segments and stacks leave the machine sound. -/
theorem Live.wrote {initial : Pmm} {root : Nat} {table : List Process} {system : System} {places : Nat → Prop}
    {kernel : Kernel} (live : Live initial root table system) (wrote : Wrote places system.kernel kernel)
    (reserved : ∀ place, places place → Reserved (liveSpaces root table system) system.kernel.vm (place / 4096)) :
    Live initial root table { system with kernel } := by
  have sound := wrote.sound live.sound reserved
  obtain ⟨-, walks⟩ := wrote.walks live.sound.spaces reserved
  have owners : kernel.vm.owners = system.kernel.vm.owners := by rw [wrote.vm]
  refine ⟨by rw [wrote.sched]; exact live.valid, sound, fun entry member heap page inside space isSpace =>
    ?_, live.first, live.homes, live.others, by rw [wrote.sched]; exact live.current, ?_⟩
  · rw [owners] at member
    rw [walks space _ isSpace]
    exact live.opened entry member heap page inside space isSpace
  · obtain ⟨place, heap⟩ := live.heap
    refine ⟨place, ?_⟩
    unfold heapOwned at heap ⊢
    rwa [owners]

theorem Owned.wrote {initial : Pmm} {table : List Process} {system : System} {places : Nat → Prop}
    {kernel : Kernel} (owned : Owned initial table system) (wrote : Wrote places system.kernel kernel) :
    Owned initial table { system with kernel } := by
  have owners : kernel.vm.owners = system.kernel.vm.owners := by rw [wrote.vm]
  have pmm : kernel.vm.pmm = system.kernel.vm.pmm := by rw [wrote.vm]
  refine ⟨by rw [wrote.sched]; exact owned.valid, ⟨owned.ledger.bound, ?_⟩, ?_, owned.blocks, owned.null,
    owned.kernel, owned.torn⟩
  · rw [owners, pmm]
    exact owned.ledger.accounts
  · rw [owners]
    exact owned.frames

/-- CR3 holds the space of the running process. -/
def Installed (sched : Sched) : Prop :=
  ∀ process, schedCurrentProcess sched = .ok process → sched.cr3 = vmmSwitchSpace process.pml

/-- A change to one process that leaves it its space. -/
theorem Installed.modify {sched after : Sched} {pid : Nat} {process changed : Process}
    (installed : Installed sched) (got : sched.processes.get pid = .ok process)
    (processes : after.processes = sched.processes.modify pid changed) (same : changed.pml = process.pml)
    (current : after.currentPid = sched.currentPid) (cr3 : after.cr3 = sched.cr3) : Installed after := by
  intro running here
  unfold schedCurrentProcess at here
  rw [processes, current] at here
  rw [cr3]
  by_cases pointed : sched.currentPid = pid
  · rw [← pointed] at got here
    obtain rfl := Except.ok.inj ((Vec.get_modify _ _ _).symm.trans here)
    rw [same]
    exact installed process got
  · refine installed running ?_
    simp only [Vec.get, Vec.modify, Function.update_of_ne pointed] at here
    exact here

theorem Installed.kept {sched after : Sched} (installed : Installed sched)
    (processes : after.processes = sched.processes) (current : after.currentPid = sched.currentPid)
    (cr3 : after.cr3 = sched.cr3) : Installed after := by
  intro running here
  unfold schedCurrentProcess at here
  rw [processes, current] at here
  rw [cr3]
  exact installed running here

theorem heapAct_sched {kernel after : Kernel} {action : HeapAction} (ran : heapAct kernel action = .ok after) :
    after.sched = kernel.sched := by
  cases action with
  | alloc size =>
    obtain ⟨⟨pointer, grown⟩, allocated, rest⟩ := bind_ok ran
    obtain rfl := Except.ok.inj rest
    exact (liballocAlloc_enters allocated).2
  | free ptr pages =>
    obtain ⟨⟨⟩, -, freed⟩ := bind_ok ran
    obtain ⟨pmm, -, rest⟩ := bind_ok freed
    obtain rfl := Except.ok.inj rest
    rfl
  | write place value =>
    obtain ⟨⟨⟩, -, rest⟩ := bind_ok ran
    obtain rfl := Except.ok.inj rest
    rfl

theorem kfree_sched {kernel after : Kernel} {ptr : Nat} {call : HeapCall} (ran : kfree kernel ptr call = .ok after) :
    after.sched = kernel.sched := by
  unfold kfree at ran
  split at ran
  next =>
    obtain rfl := Except.ok.inj ran
    rfl
  next =>
    obtain ⟨⟨⟩, -, called⟩ := bind_ok ran
    exact foldlM_keeps (fun state action next _ kept turn => (heapAct_sched turn).trans kept) rfl called

theorem reap_sched {kernel after : Kernel} {process : Process} {bstack mailbox : HeapCall}
    (ran : reap kernel process bstack mailbox = .ok after) : after.sched = kernel.sched := by
  obtain ⟨stackless, stackFreed, ran⟩ := bind_ok ran
  obtain ⟨unstacked, -, ran⟩ := bind_ok ran
  obtain ⟨rootless, -, mailFreed⟩ := bind_ok ran
  have first := kfree_sched stackFreed
  have last := kfree_sched mailFreed
  exact last.trans first

theorem Installed.send {sched after : Sched} {msg filled : Ipc} {answer : Option Nat} (installed : Installed sched)
    (ran : syscallIpcsend sched msg answer = .ok (filled, after)) : Installed after := by
  obtain ⟨pid, target, mailbox, got, rfl⟩ := syscallIpcsend_ok ran
  exact installed.modify got rfl rfl rfl rfl

theorem receive_ok {sched idle after : Sched} {got : Option Ipc}
    (ran : (do
      if ← ipcrcvTest sched then
        let (msg, sched) ← ipcrcvPop sched
        return (some msg, sched)
      else return (none, idle) : Checked (Option Ipc × Sched)) = .ok (got, after)) :
    got = none ∧ after = idle ∨ ∃ msg process mailbox, got = some msg ∧ schedCurrentProcess sched = .ok process ∧
      vecPop process.mailbox = .ok (msg, mailbox) ∧
      after = { sched with processes := sched.processes.modify sched.currentPid { process with mailbox } } := by
  obtain ⟨ready, -, rest⟩ := bind_ok ran
  cases ready with
  | true =>
    obtain ⟨⟨msg, popped⟩, pop, rest⟩ := bind_ok rest
    obtain ⟨rfl, rfl⟩ := Prod.mk.inj (Except.ok.inj rest)
    obtain ⟨process, got, rest⟩ := bind_ok pop
    obtain ⟨⟨taken, mailbox⟩, popped, rest⟩ := bind_ok rest
    obtain ⟨rfl, rfl⟩ := Prod.mk.inj (Except.ok.inj rest)
    exact .inr ⟨_, process, mailbox, rfl, got, popped, rfl⟩
  | false =>
    obtain ⟨rfl, rfl⟩ := Prod.mk.inj (Except.ok.inj rest)
    exact .inl ⟨rfl, rfl⟩

/-- The scheduler of a receive that finds no message. -/
def idleSched (sync : Bool) (sched : Sched) : Sched := if sync then forceYield sched else sched

theorem receiveCall_ok {sync : Bool} {sched after : Sched} {got : Option Ipc}
    (ran : (if sync then syscallIpcrcvSync else syscallIpcrcvOneshot) sched = .ok (got, after)) :
    got = none ∧ after = idleSched sync sched ∨ ∃ msg process mailbox, got = some msg ∧
      schedCurrentProcess sched = .ok process ∧
      vecPop process.mailbox = .ok (msg, mailbox) ∧
      after = { sched with processes := sched.processes.modify sched.currentPid { process with mailbox } } := by
  cases sync with
  | true => exact receive_ok ran
  | false => exact receive_ok ran

theorem schedPushProcess_cr3 {sched after : Sched} {process : Process} {arguments : Arguments} {answer : Option Nat}
    (ran : schedPushProcess sched process arguments answer = .ok after) : after.cr3 = sched.cr3 := by
  have five {arg1 arg2 arg3 arg4 : Nat} (ran : schedPushProcess5 sched process arg1 arg2 arg3 arg4 answer = .ok after) :
      after.cr3 = sched.cr3 := by
    obtain ⟨processes, -, rest⟩ := bind_ok ran
    obtain rfl := Except.ok.inj rest
    rfl
  cases arguments <;> exact five ran

theorem Installed.act {initial : Pmm} {table : List Process} {system after : System} {action : SystemAction}
    (installed : Installed system.kernel.sched) (owned : Owned initial table system)
    (ran : system.act action = .ok after) : Installed after.kernel.sched := by
  cases action with
  | load elf block bstack =>
    obtain ⟨⟨process, kernel⟩, loading, ran⟩ := bind_ok ran
    obtain ⟨⟨⟩, -, rest⟩ := bind_ok ran
    obtain rfl := Except.ok.inj rest
    have same := (loadElfModule_made owned.ledger loading).2.1
    dsimp only
    rwa [same]
  | push index arguments call =>
    change system.push index arguments call = _ at ran
    unfold System.push at ran
    split at ran
    next => cases ran
    next process taken =>
      obtain ⟨⟨answer, kernel⟩, growing, ran⟩ := bind_ok ran
      obtain ⟨pushed, pushing, rest⟩ := bind_ok ran
      obtain rfl := Except.ok.inj rest
      obtain ⟨⟨-, same⟩, -⟩ := growVec_enters owned.ledger growing
      have valid := owned.valid
      rw [← same] at valid installed
      obtain ⟨later, current⟩ := valid.push_arguments pushing
      intro running here
      have found := later.running here
      rw [current, List.getElem?_append_left valid.current] at found
      rw [schedPushProcess_cr3 pushing]
      exact installed running (valid.shows.get_some found)
  | tick regs =>
    obtain ⟨⟨frame, sched⟩, yielded, rest⟩ := bind_ok ran
    obtain rfl := Except.ok.inj rest
    rcases owned.valid.yield_cases yielded with ⟨-, -, rfl⟩ | switched
    · exact installed.kept rfl rfl rfl
    · obtain ⟨next, got, -, -, cr3⟩ := switched.resumed
      intro running here
      obtain rfl := Except.ok.inj (got.symm.trans here)
      exact cr3
  | send msg call =>
    obtain ⟨⟨⟩, -, ran⟩ := bind_ok ran
    obtain ⟨found, -, ran⟩ := bind_ok ran
    cases found with
    | none => cases ran
    | some proc =>
      obtain ⟨target, -, ran⟩ := bind_ok ran
      obtain ⟨⟨answer, middle⟩, expanded, ran⟩ := bind_ok ran
      obtain ⟨⟨filled, sched⟩, sent, rest⟩ := bind_ok ran
      obtain rfl := Except.ok.inj rest
      rw [← (System.expand_sched owned.ledger expanded)] at installed
      exact installed.send sent
  | receive sync =>
    obtain ⟨⟨⟩, -, ran⟩ := bind_ok ran
    obtain ⟨⟨got, sched⟩, called, rest⟩ := bind_ok ran
    obtain rfl := Except.ok.inj rest
    rcases receiveCall_ok called with ⟨-, rfl⟩ | ⟨msg, process, mailbox, -, running, -, rfl⟩
    · cases sync with
      | true => exact installed.kept rfl rfl rfl
      | false => exact installed
    · exact installed.modify running rfl rfl rfl rfl
  | exit rbx =>
    obtain ⟨⟨⟩, -, ran⟩ := bind_ok ran
    obtain ⟨sched, exited, rest⟩ := bind_ok ran
    obtain rfl := Except.ok.inj rest
    obtain ⟨process, got, rest⟩ := bind_ok exited
    obtain rfl := Except.ok.inj rest
    exact installed.modify got rfl rfl rfl rfl
  | slay bstack mailbox =>
    obtain ⟨⟨⟩, -, ran⟩ := bind_ok ran
    obtain ⟨found, -, ran⟩ := bind_ok ran
    cases found with
    | none =>
      obtain rfl := Except.ok.inj ran
      exact installed
    | some process =>
      dsimp only at ran
      split at ran
      next =>
        obtain ⟨middle, tearing, rest⟩ := bind_ok ran
        obtain rfl := Except.ok.inj rest
        obtain ⟨kernel, reaping, rest⟩ := bind_ok tearing
        obtain rfl := Except.ok.inj rest
        rw [← reap_sched reaping] at installed
        exact installed
      next =>
        obtain rfl := Except.ok.inj ran
        exact installed

/-- The bytes from an address on lie in the running process's segments and stack. -/
def System.Lends (system : System) (virt count : Nat) : Prop :=
  ∃ current, schedCurrentProcess system.kernel.sched = .ok current ∧ ∀ offset < count, UserHalf (virt + offset) ∧
    ∃ place, userAddress system.kernel.vm.mem (vmmSwitchSpace current.pml) (virt + offset) = some place ∧
      current.Owns system.kernel.vm place

/-- Programs write to what is theirs, and hand that to the kernel. -/
def Careful (system : System) : UserAction → Prop
  | .kernel action => Orderly system action
  | .poke virt _ => system.Lends virt 1
  | .send rbx _ => system.Lends rbx ipcSize
  | .receive _ rbx => system.Lends rbx ipcSize

/-- The physical bytes behind an address of the running program and those after it. -/
def System.Behind (system : System) (virt count place : Nat) : Prop :=
  ∃ offset < count, userAddress system.kernel.vm.mem system.kernel.sched.cr3 (virt + offset) = some place

/-- What holds of the machine in every state of a careful run. -/
structure Tended (initial owner : Pmm) (root : Nat) (table : List Process) (system : System) : Prop where
  live : Live initial root table system
  owned : Owned owner table system
  installed : Installed system.kernel.sched

/-- A frame of a segment or a stack holds no table. -/
theorem Live.owns_reserved {initial : Pmm} {root : Nat} {table : List Process} {system : System}
    (live : Live initial root table system) {process : Process} {place : Nat}
    (owns : process.Owns system.kernel.vm place) :
    Reserved (liveSpaces root table system) system.kernel.vm (place / 4096) := by
  obtain ⟨entry, member, kind, inside⟩ := owns
  refine live.sound.held entry member ?_ ?_ _ inside
  · rcases kind with segment | stack
    · simp [segment]
    · simp [stack]
  · rcases kind with segment | stack
    · simp [segment]
    · simp [stack]

namespace Tended

variable {initial owner : Pmm} {root : Nat} {table : List Process} {system after : System}

theorem running (tended : Tended initial owner root table system) {current : Process}
    (got : schedCurrentProcess system.kernel.sched = .ok current) :
    liveSpaces root table system system.kernel.sched.cr3 := by
  have found := tended.live.valid.running got
  exact .inr (.inr ⟨_, current, tended.live.current, found, tended.installed current got⟩)

theorem lent (tended : Tended initial owner root table system) {virt count : Nat} (lends : system.Lends virt count) :
    liveSpaces root table system system.kernel.sched.cr3 ∧
      (∀ place, system.Behind virt count place → Reserved (liveSpaces root table system) system.kernel.vm
        (place / 4096)) ∧
      ∀ offset < count, ∀ place, kernelAddress system.kernel.vm.mem system.kernel.sched.cr3
        (wrap (virt + offset)) = some place →
        system.Behind virt count place := by
  obtain ⟨current, got, behind⟩ := lends
  have cr3 := tended.installed current got
  refine ⟨tended.running got, fun place here => ?_, fun offset below place here => ?_⟩
  · obtain ⟨offset, below, same⟩ := here
    obtain ⟨-, place', same', owns⟩ := behind offset below
    rw [cr3] at same
    obtain rfl := Option.some.inj (same'.symm.trans same)
    exact tended.live.owns_reserved owns
  · obtain ⟨half, place', same, -⟩ := behind offset below
    rw [← cr3] at same
    have word : wrap (virt + offset) = virt + offset := wrap_of_lt (by unfold UserHalf at half; omega)
    rw [word, kernelAddress_user half same] at here
    obtain rfl := Option.some.inj here
    exact ⟨offset, below, same⟩

theorem wrote (tended : Tended initial owner root table system) {virt count : Nat}
    (lends : system.Lends virt count) {kernel : Kernel}
    (wrote : Wrote (system.Behind virt count) system.kernel kernel) :
    Tended initial owner root table { system with kernel } := by
  obtain ⟨-, reserved, -⟩ := tended.lent lends
  refine ⟨tended.live.wrote wrote reserved, tended.owned.wrote wrote, ?_⟩
  dsimp only
  rw [wrote.sched]
  exact tended.installed

theorem act (tended : Tended initial owner root table system) {action : SystemAction} (orderly : Orderly system action)
    (ran : system.act action = .ok after) : ∃ list, Tended initial owner root list after := by
  obtain ⟨list, live⟩ := tended.live.act tended.owned orderly ran
  obtain ⟨⟨list', owned⟩, -⟩ := tended.owned.act orderly.visit ran
  obtain rfl := owned.valid.unique live.valid
  exact ⟨_, live, owned, tended.installed.act tended.owned ran⟩

theorem poke (tended : Tended initial owner root table system) {virt : Nat} {value : BitVec 8}
    (lends : system.Lends virt 1) (ran : system.poke virt value = .ok after) :
    Tended initial owner root table after := by
  obtain ⟨⟨⟩, -, ran⟩ := bind_ok ran
  obtain ⟨⟨⟩, -, ran⟩ := bind_ok ran
  split at ran
  next target walked =>
    obtain ⟨⟨⟩, checked, rest⟩ := bind_ok ran
    obtain rfl := Except.ok.inj rest
    refine tended.wrote lends ⟨rfl, rfl, fun place outside => Function.update_of_ne ?_ _ _⟩
    rintro rfl
    exact outside ⟨0, Nat.one_pos, userAddress_walk walked (check_ok checked).1⟩
  next => cases ran

end Tended

/-- The kernel finds what a program lends. -/
theorem System.Lends.mapped {system : System} {virt count : Nat} (lends : system.Lends virt count)
    (installed : Installed system.kernel.sched) (offset : Nat) (below : offset < count) : ∃ place,
      kernelAddress system.kernel.vm.mem system.kernel.sched.cr3 (wrap (virt + offset)) = some place ∧
        system.Behind virt count place := by
  obtain ⟨current, got, behind⟩ := lends
  obtain ⟨half, place, same, -⟩ := behind offset below
  rw [← installed current got] at same
  have word : wrap (virt + offset) = virt + offset := wrap_of_lt (by unfold UserHalf at half; omega)
  rw [word]
  exact ⟨place, kernelAddress_user half same, offset, below, same⟩

theorem System.Lends.less {system : System} {virt count fewer : Nat} (lends : system.Lends virt count)
    (less : fewer ≤ count) : system.Lends virt fewer := by
  obtain ⟨current, got, behind⟩ := lends
  exact ⟨current, got, fun offset below => behind offset (by omega)⟩

/-- The stages of a send that comes back: the sender is filled in, the receiver's
mailbox makes room, and what then lies at the address is stored there. -/
structure Sending (system : System) (rbx : Nat) (call : HeapCall) (stored : Kernel) (pid : Nat) (target : Process)
    (mailbox : Vec Ipc) (answer : Option Nat) (middle after : System) : Prop where
  stores : ∃ current, schedCurrentProcess system.kernel.sched = .ok current ∧
    system.kernel.store rbx 8 current.pid = .ok stored
  asks : ∃ receiver, stored.load (wrap (rbx + 8)) 8 = .ok receiver ∧ schedGetByPid stored.sched receiver =
    .ok (some pid)
  got : stored.sched.processes.get pid = .ok target
  expands : System.expand { system with kernel := stored } target.mailbox call = .ok (answer, middle)
  pushes : ∃ msg, vecPush target.mailbox msg answer = .ok mailbox
  returns : after = { middle with kernel := { middle.kernel with sched :=
    { middle.kernel.sched with processes := middle.kernel.sched.processes.modify pid { target with mailbox } } } }

theorem System.sendAt_ok {system after : System} {rbx : Nat} {call : HeapCall}
    (ran : system.sendAt rbx call = .ok after) :
    ∃ stored pid target mailbox answer middle,
      Sending system rbx call stored pid target mailbox answer middle after := by
  obtain ⟨⟨⟩, -, ran⟩ := bind_ok ran
  obtain ⟨current, got, ran⟩ := bind_ok ran
  obtain ⟨stored, stores, ran⟩ := bind_ok ran
  obtain ⟨receiver, named, ran⟩ := bind_ok ran
  obtain ⟨found, asked, ran⟩ := bind_ok ran
  cases found with
  | none => cases ran
  | some pid =>
    obtain ⟨target, loaded, ran⟩ := bind_ok ran
    obtain ⟨⟨answer, middle⟩, expanded, ran⟩ := bind_ok ran
    obtain ⟨msg, -, ran⟩ := bind_ok ran
    obtain ⟨mailbox, pushed, rest⟩ := bind_ok ran
    obtain rfl := Except.ok.inj rest
    exact ⟨stored, pid, target, mailbox, answer, middle, ⟨current, got, stores⟩, ⟨receiver, named, asked⟩, loaded,
      expanded, ⟨msg, pushed⟩, rfl⟩

theorem System.receiveAt_ok {system after : System} {sync : Bool} {rbx : Nat}
    (ran : system.receiveAt sync rbx = .ok after) :
    ∃ sched, system.act (.receive sync) = .ok { system with kernel := { system.kernel with sched } } ∧
      (sched = idleSched sync system.kernel.sched ∧ after = { system with kernel := { system.kernel with sched } } ∨
        ∃ msg process mailbox kernel, schedCurrentProcess system.kernel.sched = .ok process ∧
          vecPop process.mailbox = .ok (msg, mailbox) ∧
          sched = { system.kernel.sched with
            processes := system.kernel.sched.processes.modify system.kernel.sched.currentPid { process with mailbox } } ∧
          Kernel.storeIpc { system.kernel with sched } rbx msg = .ok kernel ∧ after = { system with kernel }) := by
  obtain ⟨⟨⟩, entered, ran⟩ := bind_ok ran
  obtain ⟨⟨got, sched⟩, called, ran⟩ := bind_ok ran
  refine ⟨sched, ?_, ?_⟩
  · change system.receive sync = _
    unfold System.receive
    rw [entered, ok_bind]
    dsimp only
    rw [called]
    rfl
  · rcases receiveCall_ok called with ⟨rfl, rfl⟩ | ⟨msg, process, mailbox, rfl, running, popped, rfl⟩
    · exact .inl ⟨rfl, (Except.ok.inj ran).symm⟩
    · obtain ⟨kernel, storing, rest⟩ := bind_ok ran
      exact .inr ⟨msg, process, mailbox, kernel, running, popped, rfl, storing, (Except.ok.inj rest).symm⟩

namespace Tended

variable {initial owner : Pmm} {root : Nat} {table : List Process} {system after : System}

theorem stored (tended : Tended initial owner root table system) {rbx value : Nat} {kernel : Kernel}
    (lends : system.Lends rbx ipcSize) (ran : system.kernel.store rbx 8 value = .ok kernel) :
    Wrote (system.Behind rbx 8) system.kernel kernel := by
  obtain ⟨isSpace, reserved, within⟩ := tended.lent (lends.less (show 8 ≤ ipcSize by decide))
  exact (Wrote.refl _ _).store tended.live.sound.spaces reserved isSpace within ran

theorem send (tended : Tended initial owner root table system) {rbx pid : Nat} {call : HeapCall}
    {stored : Kernel} {target : Process} {mailbox : Vec Ipc} {answer : Option Nat} {middle : System}
    (lends : system.Lends rbx ipcSize)
    (sending : Sending system rbx call stored pid target mailbox answer middle after) :
    table[pid]? = some target ∧ Tended initial owner root table { system with kernel := stored } ∧
      Tended initial owner root (table.set pid { target with mailbox }) after := by
  obtain ⟨current, -, stores⟩ := sending.stores
  have wrote := tended.stored lends stores
  have filled := tended.wrote (lends.less (show 8 ≤ ipcSize by decide)) wrote
  obtain ⟨receiver, -, asked⟩ := sending.asks
  obtain ⟨rfl, process, found, alive⟩ := filled.live.valid.by_pid asked
  have inside := (List.getElem?_eq_some_iff.mp found).1
  obtain rfl : process = target := Option.some.inj (found.symm.trans (filled.live.valid.get sending.got inside))
  have same := System.expand_sched filled.owned.ledger sending.expands
  dsimp only at same
  obtain ⟨msg, pushed⟩ := sending.pushes
  have number := filled.live.valid.pids _ _ found
  have valid : Table { stored.sched with processes := stored.sched.processes.modify pid { process with mailbox } }
      (table.set pid { process with mailbox }) := filled.live.valid.set number
  have installed : Installed { stored.sched with processes := stored.sched.processes.modify pid { process with mailbox } } :=
    filled.installed.modify sending.got rfl rfl rfl rfl
  rw [sending.returns, same]
  exact ⟨found, filled, filled.live.deliver found sending.expands valid rfl,
    filled.owned.deliver found alive sending.expands valid (vecPush_pointer pushed), installed⟩

theorem receive (tended : Tended initial owner root table system) {sync : Bool} {rbx : Nat}
    (lends : system.Lends rbx ipcSize) (ran : system.receiveAt sync rbx = .ok after) :
    ∃ list, Tended initial owner root list after := by
  obtain ⟨sched, called, rest⟩ := System.receiveAt_ok ran
  obtain ⟨list, middle⟩ :=
    tended.act (orderly_quiet (fun _ _ other => by cases other) fun _ _ _ other => by cases other) called
  rcases rest with ⟨-, rfl⟩ | ⟨msg, process, mailbox, kernel, got, -, rfl, storing, rfl⟩
  · exact ⟨list, middle⟩
  · have again : System.Lends { system with kernel := { system.kernel with sched :=
        { system.kernel.sched with processes := system.kernel.sched.processes.modify system.kernel.sched.currentPid { process with mailbox } } } }
        rbx ipcSize := by
      obtain ⟨current, got', behind⟩ := lends
      obtain rfl := Except.ok.inj (got.symm.trans got')
      exact ⟨{ process with mailbox }, Vec.get_modify _ _ _, behind⟩
    obtain ⟨isSpace, reserved, within⟩ := middle.lent again
    have wrote := (Wrote.refl _ _).storeIpc middle.live.sound.spaces reserved isSpace within storing
    exact ⟨list, middle.wrote again wrote⟩

end Tended

theorem boot_installed {mem : Bytes} {handover : Handover} {ist0 ist1 rsp0 block table : HeapCall}
    {system : System} (fits : handover.Fits) (ran : boot mem handover ist0 ist1 rsp0 block table = .ok system) :
    Installed system.kernel.sched := by
  obtain ⟨initial, root, started⟩ := boot_took fits ran
  obtain ⟨⟨pmm, edited⟩, -, ran⟩ := bind_ok ran
  obtain ⟨vm, -, ran⟩ := bind_ok ran
  obtain ⟨⟨tss, stacked⟩, -, ran⟩ := bind_ok ran
  obtain ⟨kernel, scheduler, rest⟩ := bind_ok ran
  obtain rfl := Except.ok.inj rest
  obtain ⟨⟨_, zeroed⟩, -, scheduler⟩ := bind_ok scheduler
  obtain ⟨⟨answer, grown⟩, -, scheduler⟩ := bind_ok scheduler
  obtain ⟨sched, init, rest⟩ := bind_ok scheduler
  obtain rfl := Except.ok.inj rest
  have cr3 : sched.cr3 = vmmSwitchSpace grown.vm.kernelPml4 := by
    obtain ⟨processes, -, rest⟩ := bind_ok init
    obtain rfl := Except.ok.inj rest
    rfl
  intro process running
  have found := started.table.running running
  obtain rfl := List.mem_singleton.mp (List.mem_of_getElem? found)
  exact cr3.trans (congrArg vmmSwitchSpace started.sound.own.pml4)

/-- The states of careful runs. -/
theorem run_tended {system : System} (run : System.UserRun Careful system) :
    ∃ initial owner root table, Tended initial owner root table system := by
  induction run with
  | boot fits ran =>
    obtain ⟨initial, root, started⟩ := boot_took fits ran
    obtain ⟨owner, list, owned⟩ := boot_owned fits ran
    obtain rfl := owned.valid.unique started.table
    exact ⟨initial, owner, root, _, started.live, owned, boot_installed fits ran⟩
  | @step system after action before careful ran ih =>
    obtain ⟨initial, owner, root, table, tended⟩ := ih
    cases action with
    | kernel action =>
      obtain ⟨list, next⟩ := tended.act careful ran
      exact ⟨initial, owner, root, list, next⟩
    | poke virt value => exact ⟨initial, owner, root, table, tended.poke careful ran⟩
    | send rbx call =>
      obtain ⟨stored, pid, target, mailbox, answer, middle, sending⟩ := System.sendAt_ok ran
      exact ⟨initial, owner, root, _, (tended.send careful sending).2.2⟩
    | receive sync rbx =>
      obtain ⟨list, next⟩ := tended.receive careful ran
      exact ⟨initial, owner, root, list, next⟩

/-- Runs without the programs' memory are runs with programs that leave it alone. -/
theorem System.Run.user {system : System} (run : System.Run Orderly system) : System.UserRun Careful system := by
  induction run with
  | boot fits ran => exact .boot fits ran
  | @step system after action _ fine ran ih =>
    have careful : Careful system (.kernel action) := fine
    exact .step ih careful ran

end Navy
