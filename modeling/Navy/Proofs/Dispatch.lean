import Navy.Dispatch
import Navy.Proofs.RoundRobin
import Navy.Proofs.Preemption

/-! Which system calls the kernel survives, from every state that interrupted
calls can reach. -/

namespace Navy

open Outcome

/-- Every mailbox is one that pushes and pops left. -/
def Boxed (table : List Process) : Prop :=
  ∀ process ∈ table, ∃ items, process.mailbox.Shows items

namespace Boxed

variable {table : List Process} {pid : Nat} {process next : Process} {items : List Ipc}

theorem set (boxed : Boxed table) (shows : process.mailbox.Shows items) : Boxed (table.set pid process) := by
  intro member among
  rcases List.mem_or_eq_of_mem_set among with old | rfl
  · exact boxed member old
  · exact ⟨items, shows⟩

theorem found (boxed : Boxed table) (found : table[pid]? = some process) : ∃ items, process.mailbox.Shows items :=
  boxed process (List.mem_of_getElem? found)

theorem keep (boxed : Boxed table) (found : table[pid]? = some process) (same : next.mailbox = process.mailbox) :
    Boxed (table.set pid next) := by
  obtain ⟨items, shows⟩ := boxed.found found
  exact boxed.set (same ▸ shows)

theorem push (boxed : Boxed table) (empty : process.mailbox = vecInit) : Boxed (table ++ [process]) := by
  intro member among
  rcases List.mem_append.mp among with old | last
  · exact boxed member old
  · rw [List.mem_singleton.mp last, empty]
    exact ⟨[], .init⟩

end Boxed

/-- Sends under way go to processes of the table. -/
def Aimed (phase : Nat → Phase) (count : Nat) : Prop :=
  ∀ sender proc msg, phase sender = .sending proc msg → proc < count

theorem Aimed.update {phase : Nat → Phase} {count pid : Nat} {next : Phase} (aimed : Aimed phase count)
    (target : ∀ proc msg, next = .sending proc msg → proc < count) : Aimed (Function.update phase pid next) count := by
  intro sender proc msg sending
  by_cases same : sender = pid
  · subst same
    rw [Function.update_self] at sending
    exact target proc msg sending
  · rw [Function.update_of_ne same] at sending
    exact aimed sender proc msg sending

theorem Boxed.move {state after : Preempted} {table : List Process} {next : Move} (boxed : Boxed table)
    (valid : Table state.sched table) (aimed : Aimed state.phase table.length) (ran : move state next = .ok after) :
    ∃ list, Table after.sched list ∧ Boxed list ∧ Aimed after.phase list.length := by
  cases next with
  | create pml rip bstack stack arg1 arg2 arg3 arg4 answer =>
    obtain ⟨sched, pushed, rest⟩ := bind_ok ran
    obtain rfl := Except.ok.inj rest
    refine ⟨_, (valid.push pushed).1, boxed.push rfl, fun sender proc msg sending => ?_⟩
    rw [List.length_append]
    exact Nat.lt_add_right _ (aimed sender proc msg sending)
  | exit rbx =>
    obtain ⟨⟨⟩, -, rest⟩ := bind_ok ran
    obtain ⟨sched, exited, rest⟩ := bind_ok rest
    obtain rfl := Except.ok.inj rest
    obtain ⟨process, found, done, -⟩ := valid.exit exited
    refine ⟨_, done, boxed.keep found rfl, ?_⟩
    rwa [List.length_set]
  | tick regs =>
    obtain ⟨⟨resumed, sched⟩, yielded, rest⟩ := bind_ok ran
    obtain rfl := Except.ok.inj rest
    rcases valid.yield yielded with ⟨same, -⟩ | ⟨process, found, done, -⟩
    · exact ⟨table, same, boxed, aimed⟩
    · refine ⟨_, done, boxed.keep found rfl, ?_⟩
      rwa [List.length_set]
  | check msg answer =>
    obtain ⟨⟨⟩, -, rest⟩ := bind_ok ran
    obtain ⟨⟨filled, proc, sched⟩, checked, rest⟩ := bind_ok rest
    obtain rfl := Except.ok.inj rest
    obtain ⟨-, -, target, mailbox, found, -, expanded, done, -⟩ := valid.send_expand checked
    obtain ⟨items, shows⟩ := boxed.found found
    have grown := shows.expand expanded
    refine ⟨_, done, boxed.set grown, ?_⟩
    rw [List.length_set]
    apply aimed.update
    rintro _ _ ⟨⟩
    exact (List.getElem?_eq_some_iff.mp found).1
  | store =>
    unfold Navy.move at ran
    dsimp only at ran
    split at ran
    next proc msg sending =>
      obtain ⟨sched, stored, rest⟩ := bind_ok ran
      obtain rfl := Except.ok.inj rest
      obtain ⟨target, mailbox, found, store, done, -⟩ := valid.send_store (aimed _ _ _ sending) stored
      obtain ⟨items, shows⟩ := boxed.found found
      have kept := shows.store store
      refine ⟨_, done, boxed.set kept, ?_⟩
      rw [List.length_set]
      exact aimed.update nofun
    next => cases ran
  | test sync =>
    obtain ⟨⟨⟩, -, rest⟩ := bind_ok ran
    obtain ⟨ready, -, rest⟩ := bind_ok rest
    cases ready with
    | true =>
      obtain rfl := Except.ok.inj rest
      exact ⟨table, valid, boxed, aimed.update nofun⟩
    | false =>
      obtain rfl := Except.ok.inj rest
      refine ⟨table, ?_, boxed, aimed⟩
      cases sync with
      | true => exact ⟨valid.shows, valid.pids, valid.last, valid.current⟩
      | false => exact valid
  | pop =>
    unfold Navy.move at ran
    dsimp only at ran
    split at ran
    next popping =>
      obtain ⟨⟨msg, sched⟩, popped, rest⟩ := bind_ok ran
      obtain rfl := Except.ok.inj rest
      obtain ⟨process, mailbox, found, pop, done, -⟩ := valid.receive_pop popped
      obtain ⟨items, shows⟩ := boxed.found found
      obtain ⟨rest, -, kept, -⟩ := shows.pop pop
      refine ⟨_, done, boxed.set kept, ?_⟩
      rw [List.length_set]
      exact aimed.update nofun
    next => cases ran

theorem PreemptedRun.boxed {meets : Preempted → Move → Prop} {state : Preempted} (run : PreemptedRun meets state) :
    ∃ table, Table state.sched table ∧ Boxed table ∧ Aimed state.phase table.length := by
  induction run with
  | boot ran =>
    refine ⟨_, Table.init ran, fun process among => ?_, nofun⟩
    rw [List.mem_singleton.mp among]
    exact ⟨[], .init⟩
  | step before fine ran ih =>
    obtain ⟨table, valid, boxed, aimed⟩ := ih
    exact boxed.move valid aimed ran

/-- The receiver runs, and where its mailbox is full the heap has a larger block. -/
def Delivers (sched : Sched) (msg : Ipc) (answer : Option Nat) : Prop :=
  msg.receiver < sched.processes.length ∧ ∃ target, sched.processes.get msg.receiver = .ok target ∧
    target.state = .running ∧ (target.mailbox.length + 1 > target.mailbox.capacity → answer ≠ none)

/-- The kernel can read a string there, up to its terminator. -/
def StringAt (mem : Bytes) (root s : Nat) : Prop :=
  ∃ length, kernelByte mem root (s + length) = some 0 ∧ ∀ offset, offset < length →
    kernelByte mem root (s + offset) ≠ none

/-- With enough fuel `serial_puts` comes back exactly from a string. -/
theorem serialPuts_returns_iff {mem : Bytes} {root fuel s : Nat} : (∃ text, serialPuts mem root fuel s = .ok text) ↔
    ∃ length, length < fuel ∧ kernelByte mem root (s + length) = some 0 ∧ ∀ offset, offset < length →
      kernelByte mem root (s + offset) ≠ none := by
  induction fuel generalizing s with
  | zero =>
    constructor
    · rintro ⟨text, ran⟩
      cases ran
    · rintro ⟨length, less, -⟩
      cases less
  | succ fuel ih =>
    unfold serialPuts
    cases first : kernelByte mem root s with
    | none =>
      constructor
      · rintro ⟨text, ran⟩
        cases ran
      · rintro ⟨length, -, last, read⟩
        cases length with
        | zero => exact absurd (first.symm.trans last) nofun
        | succ length => exact absurd first (read 0 (Nat.succ_pos length))
    | some byte =>
      dsimp only
      by_cases ends : byte = 0
      · rw [if_pos ends]
        subst ends
        exact ⟨fun _ => ⟨0, Nat.succ_pos fuel, first, nofun⟩, fun _ => ⟨[], rfl⟩⟩
      rw [if_neg ends]
      constructor
      · rintro ⟨text, ran⟩
        obtain ⟨rest, puts, -⟩ := bind_ok ran
        obtain ⟨length, less, last, read⟩ := ih.mp ⟨rest, puts⟩
        refine ⟨length + 1, Nat.succ_lt_succ less, ?_, fun offset inside => ?_⟩
        · rw [← last]
          congr 1
          omega
        · cases offset with
          | zero =>
            rw [Nat.add_zero, first]
            exact nofun
          | succ offset =>
            have later := read offset (Nat.lt_of_succ_lt_succ inside)
            rwa [Nat.add_right_comm] at later
      · rintro ⟨length, less, last, read⟩
        cases length with
        | zero => exact absurd (Option.some.inj (first.symm.trans last)) ends
        | succ length =>
          have tail : ∃ text, serialPuts mem root fuel (s + 1) = .ok text := by
            refine ih.mpr ⟨length, Nat.lt_of_succ_lt_succ less, ?_, fun offset inside => ?_⟩
            · rw [← last]
              congr 1
              omega
            · have later := read (offset + 1) (Nat.succ_lt_succ inside)
              rwa [Nat.add_right_comm]
          obtain ⟨rest, puts⟩ := tail
          rw [puts]
          exact ⟨_, rfl⟩

/-- A hole lies behind every address, so the fuel of a log lasts. -/
theorem log_returns_iff {mem : Bytes} {sched : Sched} {rbx : Nat} : (∃ text, syscallLog mem sched rbx = .ok text) ↔
    StringAt mem sched.cr3 rbx := by
  unfold syscallLog
  rw [serialPuts_returns_iff]
  constructor
  · rintro ⟨length, -, string⟩
    exact ⟨length, string⟩
  · rintro ⟨length, last, read⟩
    refine ⟨length, Decidable.byContradiction fun long => ?_, last, read⟩
    obtain ⟨offset, less, place⟩ : ∃ offset, offset < 2 ^ 64 ∧ wrap (rbx + offset) = 2 ^ 63 :=
      ⟨(2 ^ 63 + (2 ^ 64 - rbx % 2 ^ 64)) % 2 ^ 64, by omega, by unfold wrap; omega⟩
    have hole : kernelByte mem sched.cr3 (rbx + offset) = none := by
      unfold kernelByte kernelAddress
      rw [place, if_neg (by decide)]
      rfl
    exact read offset (by omega) hole

namespace Table

variable {sched : Sched} {table : List Process}

theorem current_process (valid : Table sched table) :
    ∃ process, table[sched.currentPid]? = some process ∧ schedCurrentProcess sched = .ok process := by
  have found := List.getElem?_eq_getElem valid.current
  exact ⟨_, found, valid.shows.get_some found⟩

theorem send_returns {msg : Ipc} {answer : Option Nat} (valid : Table sched table) (boxed : Boxed table) :
    (∃ result, syscallIpcsend sched msg answer = .ok result) ↔ Delivers sched msg answer := by
  constructor
  · rintro ⟨result, ran⟩
    obtain ⟨⟨sent, proc, middle⟩, first, rest⟩ := bind_ok ran
    obtain ⟨rfl, -, target, mailbox, found, alive, expanded, -⟩ := valid.send_expand first
    have inside := (List.getElem?_eq_some_iff.mp found).1
    refine ⟨by rwa [valid.shows.length], target, valid.shows.get_some found, alive, ?_⟩
    rintro full rfl
    unfold vecExpand at expanded
    rw [if_pos full] at expanded
    cases expanded
  · rintro ⟨inside, target, got, alive, grows⟩
    obtain ⟨caller, -, current⟩ := valid.current_process
    have found := valid.get got (by rwa [← valid.shows.length])
    obtain ⟨items, shows⟩ := boxed.found found
    obtain ⟨mailbox, expanded⟩ : ∃ mailbox, vecExpand target.mailbox answer = .ok mailbox := by
      unfold vecExpand
      split
      next full =>
        cases answer with
        | none => exact absurd rfl (grows full)
        | some pointer => exact ⟨_, rfl⟩
      next => exact ⟨_, rfl⟩
    have asked : schedGetByPid sched msg.receiver = .ok (some msg.receiver) := by
      unfold schedGetByPid
      rw [if_pos inside, got, ok_bind, if_pos alive]
      rfl
    have first : ipcsendExpand sched msg answer = .ok ({ msg with sender := caller.pid }, msg.receiver, { sched with
        processes := sched.processes.modify msg.receiver { target with mailbox } }) := by
      unfold ipcsendExpand
      rw [current, ok_bind]
      dsimp only
      rw [asked, ok_bind]
      dsimp only
      rw [got, ok_bind, expanded, ok_bind]
      rfl
    have room : mailbox.length < mailbox.capacity := by
      obtain ⟨length, capacity, -⟩ := vecExpand_ok expanded
      rw [length, capacity]
      exact Vec.lt_grown shows.room
    have loads : (sched.processes.modify msg.receiver { target with mailbox }).get msg.receiver =
        .ok { target with mailbox } := by
      unfold Vec.get Vec.modify
      dsimp only
      rw [Function.update_self]
    unfold syscallIpcsend ipcsendStore vecStore
    rw [first, ok_bind]
    dsimp only
    rw [loads, ok_bind, check_true _ room]
    exact ⟨_, rfl⟩

theorem receive_returns (valid : Table sched table) (boxed : Boxed table) (idle : Sched) :
    ∃ result, (do
      if ← ipcrcvTest sched then
        let (msg, sched) ← ipcrcvPop sched
        return (some msg, sched)
      else return (none, idle) : Checked (Option Ipc × Sched)) = .ok result := by
  obtain ⟨process, found, current⟩ := valid.current_process
  obtain ⟨items, shows⟩ := boxed.found found
  unfold ipcrcvTest ipcrcvPop
  simp only [current, ok_bind, pure_bind]
  split
  next waiting =>
    obtain ⟨popped, pop⟩ := shows.pop_returns (by simpa using waiting)
    rw [pop]
    exact ⟨_, rfl⟩
  next => exact ⟨_, rfl⟩

theorem call_returns {msg : Ipc} {answer : Option Nat} (valid : Table sched table) (boxed : Boxed table)
    (mem : Bytes) (regs : Registers) (handler : Handler) :
    (∃ answered, handler.call mem sched regs msg answer = .ok answered) ↔
      (handler = .syscallIpcsend → Delivers sched msg answer) ∧
      (handler = .syscallLog → StringAt mem sched.cr3 regs.rbx) := by
  obtain ⟨current, -, runs⟩ := valid.current_process
  cases handler with
  | syscallIpcsend =>
    rw [← valid.send_returns boxed]
    constructor
    · rintro ⟨answered, ran⟩
      obtain ⟨result, sent, -⟩ := bind_ok ran
      exact ⟨fun _ => ⟨result, sent⟩, nofun⟩
    · intro sends
      obtain ⟨result, sent⟩ := sends.1 rfl
      unfold Handler.call
      dsimp only
      rw [sent]
      exact ⟨_, rfl⟩
  | syscallIpcrcvSync =>
    obtain ⟨result, received⟩ := valid.receive_returns boxed (forceYield sched)
    refine ⟨fun _ => ⟨nofun, nofun⟩, fun _ => ?_⟩
    unfold Handler.call syscallIpcrcvSync
    dsimp only
    rw [received]
    exact ⟨_, rfl⟩
  | syscallIpcrcvOneshot =>
    obtain ⟨result, received⟩ := valid.receive_returns boxed sched
    refine ⟨fun _ => ⟨nofun, nofun⟩, fun _ => ?_⟩
    unfold Handler.call syscallIpcrcvOneshot
    dsimp only
    rw [received]
    exact ⟨_, rfl⟩
  | syscallLog =>
    rw [← log_returns_iff]
    constructor
    · rintro ⟨answered, ran⟩
      obtain ⟨text, read, -⟩ := bind_ok ran
      exact ⟨nofun, fun _ => ⟨text, read⟩⟩
    · intro reads
      obtain ⟨text, read⟩ := reads.2 rfl
      unfold Handler.call
      dsimp only
      rw [read]
      exact ⟨_, rfl⟩
  | syscallExit =>
    refine ⟨fun _ => ⟨nofun, nofun⟩, fun _ => ?_⟩
    unfold Handler.call syscallExit
    dsimp only
    rw [runs]
    exact ⟨_, rfl⟩
  | syscallGetpid =>
    refine ⟨fun _ => ⟨nofun, nofun⟩, fun _ => ?_⟩
    unfold Handler.call syscallGetpid
    dsimp only
    rw [runs]
    exact ⟨_, rfl⟩

end Table

theorem matrix_end {number : Nat} (outside : ¬ number < 9) : syscallMatrix[number]? = none :=
  List.getElem?_eq_none (Nat.le_of_not_lt outside)

theorem matrix_entry (number : Nat) : (∃ handler, syscallMatrix[number]? = some (some handler)) ↔
    number ≤ Sys.log.number ∨ number = Sys.exit.number ∨ number = Sys.getpid.number := by
  have filled : (∃ handler, syscallMatrix[number]? = some (some handler)) ↔ syscallMatrix[number]?.join.isSome := by
    simp only [Option.isSome_iff_exists, Option.join_eq_some_iff]
  rw [filled]
  by_cases small : number < 9
  · interval_cases number <;> decide
  · rw [matrix_end small]
    simp only [Sys.number]
    constructor
    · nofun
    · omega

/-- The entries whose handlers ask for something more. -/
theorem matrix_names {number : Nat} {handler : Handler} (found : syscallMatrix[number]? = some (some handler)) :
    (handler = .syscallIpcsend ↔ number = Sys.ipcSend.number) ∧ (handler = .syscallLog ↔ number = Sys.log.number) := by
  have named : (syscallMatrix[number]?.join = some .syscallIpcsend ↔ number = Sys.ipcSend.number) ∧
      (syscallMatrix[number]?.join = some .syscallLog ↔ number = Sys.log.number) := by
    by_cases small : number < 9
    · interval_cases number <;> decide
    · rw [matrix_end small]
      simp only [Sys.number]
      refine ⟨⟨nofun, ?_⟩, nofun, ?_⟩ <;> omega
  rw [← named.1, ← named.2, found]
  simp

/-- Which library calls a handler serves. -/
def LibcCall.Served (mem : Bytes) (sched : Sched) (msg : Ipc) (answer : Option Nat) : LibcCall → Prop
  | .malloc _ | .free _ | .realloc _ _ => False
  | .ipcSend _ => Delivers sched msg answer
  | .sysLog s => StringAt mem sched.cr3 s
  | .exit _ | .getpid | .ipcRcvSync _ | .ipcRcvOneshot _ => True

/-- A call comes through exactly with a number that has a handler, for a send with a
receiver that can take the message, and for a log with a string the kernel can read. -/
theorem syscall_survives_iff {state : Preempted} (run : PreemptedRun (fun _ _ => True) state) (mem : Bytes)
    (regs : Registers) (msg : Ipc) (answer : Option Nat) :
    ((∃ answered, syscallHandler mem state.sched regs msg answer = .ok answered) ↔
      (regs.rax ≤ Sys.log.number ∨ regs.rax = Sys.exit.number ∨ regs.rax = Sys.getpid.number) ∧
      (regs.rax = Sys.ipcSend.number → Delivers state.sched msg answer) ∧
      (regs.rax = Sys.log.number → StringAt mem state.sched.cr3 regs.rbx)) ∧
    ∀ call : LibcCall, (∃ answered, syscallHandler mem state.sched (call.enter regs) msg answer = .ok answered) ↔
      call.Served mem state.sched msg answer := by
  obtain ⟨table, valid, boxed, -⟩ := run.boxed
  have exactly (regs : Registers) : (∃ answered, syscallHandler mem state.sched regs msg answer = .ok answered) ↔
      (regs.rax ≤ Sys.log.number ∨ regs.rax = Sys.exit.number ∨ regs.rax = Sys.getpid.number) ∧
      (regs.rax = Sys.ipcSend.number → Delivers state.sched msg answer) ∧
      (regs.rax = Sys.log.number → StringAt mem state.sched.cr3 regs.rbx) := by
    rw [← matrix_entry]
    constructor
    · rintro ⟨answered, ran⟩
      unfold syscallHandler at ran
      split at ran
      next handler found =>
        obtain ⟨sends, logs⟩ := (valid.call_returns boxed mem regs handler).mp ⟨answered, ran⟩
        obtain ⟨send, log⟩ := matrix_names found
        exact ⟨⟨handler, found⟩, fun same => sends (send.mpr same), fun same => logs (log.mpr same)⟩
      next => cases ran
    · rintro ⟨⟨handler, found⟩, sends, logs⟩
      unfold syscallHandler
      rw [found]
      obtain ⟨send, log⟩ := matrix_names found
      exact (valid.call_returns boxed mem regs handler).mpr ⟨fun sending => sends (send.mp sending), fun logging =>
        logs (log.mp logging)⟩
  refine ⟨exactly regs, fun call => ?_⟩
  rw [exactly]
  cases call <;> simp [LibcCall.enter, LibcCall.Served, syscall5, Sys.number]

/-- A library `malloc`, a message to a pid nobody has and, in a space without pages, a text at `NULL`. -/
private def fatal (state : Preempted) : Nat × Checked TaskState × List (Checked Unit) :=
  let calls (call : LibcCall) (receiver : Nat) :=
    (syscallHandler (fun _ => 0) state.sched (call.enter .zero) ⟨0, receiver, 0⟩ heapBlock).map fun _ => ()
  (state.sched.currentPid, (schedCurrentProcess state.sched).map Process.state,
    [calls (.malloc 16) 0, calls (.ipcSend 0x400000) 5, calls (.sysLog 0) 0])

private def firstUser : List Move :=
  .create 0 0 0 ⟨0, 0⟩ 0 0 0 0 heapBlock :: List.replicate 10 (.tick .zero)

private theorem fatal_ran :
    (schedInit .zero 0 heapBlock >>= fun sched => firstUser.foldlM move (.start sched)).map fatal =
    .ok (1, .ok .running, [.error .outOfBounds, .error .assertion, .error .outOfBounds]) := by decide +kernel

private theorem map_error {T : Type} {ran : Checked T} {fault : Fault} (failed : ran.map (fun _ => ()) = .error fault) :
    ran = .error fault := by
  cases ran with
  | ok result => cases failed
  | error other => exact congrArg _ (Except.error.inj failed)

/-- A user process that calls `malloc`, sends to a pid nobody has, or logs what is no string. -/
theorem malloc_fatal : ∃ state, PreemptedRun (fun _ _ => True) state ∧ state.sched.currentPid = 1 ∧
    (schedCurrentProcess state.sched).map Process.state = .ok .running ∧
    syscallHandler (fun _ => 0) state.sched ((LibcCall.malloc 16).enter .zero) ⟨0, 0, 0⟩ heapBlock =
      .error .outOfBounds ∧
    syscallHandler (fun _ => 0) state.sched ((LibcCall.ipcSend 0x400000).enter .zero) ⟨0, 5, 0⟩ heapBlock =
      .error .assertion ∧
    syscallHandler (fun _ => 0) state.sched ((LibcCall.sysLog 0).enter .zero) ⟨0, 0, 0⟩ heapBlock =
      .error .outOfBounds := by
  obtain ⟨state, ran, shown⟩ := map_ok fatal_ran
  obtain ⟨sched, boot, rest⟩ := bind_ok ran
  simp only [fatal, Prod.mk.injEq, List.cons.injEq] at shown
  obtain ⟨current, alive, allocates, sends, logs, -⟩ := shown
  exact ⟨state, (PreemptedRun.boot boot).moves rest, current, alive, map_error allocates, map_error sends,
    map_error logs⟩

theorem syscall_survives_iff_getpid : ∃ state : Preempted, state.sched.currentPid = 1 ∧
    ∃ answered, syscallHandler (fun _ => 0) state.sched (LibcCall.getpid.enter .zero) ⟨0, 0, 0⟩ none =
      .ok answered := by
  obtain ⟨state, ran, shown⟩ := map_ok fatal_ran
  obtain ⟨sched, boot, rest⟩ := bind_ok ran
  have survives := (syscall_survives_iff ((PreemptedRun.boot boot).moves rest)
    (fun _ => 0) .zero ⟨0, 0, 0⟩ none).2 .getpid
  exact ⟨state, congrArg Prod.fst shown, survives.mpr trivial⟩

end Navy
