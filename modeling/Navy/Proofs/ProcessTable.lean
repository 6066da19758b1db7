import Navy.Syscall
import Navy.Proofs.VecContents

/-! The process table as a list: a process stands at the index its pid names.
Each function of the scheduler and each system call has one lemma that says
what it makes of that list. -/

namespace Navy

open Outcome

structure Table (sched : Sched) (table : List Process) : Prop where
  shows : sched.processes.Shows table
  pids : ∀ (index : Nat) (process : Process), table[index]? = some process → process.pid = index
  last : sched.lastPid = table.length
  current : sched.currentPid < table.length

namespace Table

variable {sched after : Sched} {table : List Process} {process : Process} {index : Nat}

theorem get (valid : Table sched table) (ran : sched.processes.get index = .ok process)
    (inside : index < table.length) :
    table[index]? = some process := valid.shows.get_ok ran inside

theorem running (valid : Table sched table) (ran : schedCurrentProcess sched = .ok process) :
    table[sched.currentPid]? = some process := valid.get ran valid.current

theorem set (valid : Table sched table) (pid : process.pid = index) :
    Table { sched with processes := sched.processes.modify index process } (table.set index process) := by
  refine ⟨valid.shows.modify index process, fun place other found => ?_, ?_, ?_⟩
  · by_cases same : place = index
    · subst same
      by_cases inside : place < table.length
      · rw [List.getElem?_set_self inside] at found
        rw [← Option.some.inj found, pid]
      · have outside : (table.set place process).length ≤ place := by
          simpa using inside
        rw [List.getElem?_eq_none outside] at found
        cases found
    · rw [List.getElem?_set_ne (Ne.symm same)] at found
      exact valid.pids place other found
  · rw [List.length_set]
    exact valid.last
  · rw [List.length_set]
    exact valid.current

theorem init {cr3 : Nat} {answer : Option Nat} (ran : schedInit .zero cr3 answer = .ok after) :
    Table after [{ Process.zero with pid := 0, state := .running, pml := mmapPhysToIo cr3 }] := by
  obtain ⟨processes, pushed, rest⟩ := bind_ok ran
  obtain rfl := Except.ok.inj rest
  refine ⟨Vec.Shows.init.push pushed, fun index process found => ?_, rfl, Nat.zero_lt_one⟩
  obtain ⟨inside, rfl⟩ := List.getElem?_eq_some_iff.mp found
  have first : index = 0 := by simpa using inside
  subst first
  rfl

theorem push {arg1 arg2 arg3 arg4 : Nat} {answer : Option Nat} (valid : Table sched table)
    (ran : schedPushProcess5 sched process arg1 arg2 arg3 arg4 answer = .ok after) :
    Table after (table ++ [{ process with
      pid := table.length, regs := { process.regs with rdi := arg1, rsi := arg2, rdx := arg3, rcx := arg4 } }]) ∧
    after.currentPid = sched.currentPid := by
  obtain ⟨processes, pushed, rest⟩ := bind_ok ran
  obtain rfl := Except.ok.inj rest
  have last := valid.last
  rw [last] at pushed
  refine ⟨⟨valid.shows.push pushed, fun index other found => ?_, ?_, ?_⟩, rfl⟩
  · by_cases inside : index < table.length
    · rw [List.getElem?_append_left inside] at found
      exact valid.pids index other found
    · rw [List.getElem?_append_right (by omega)] at found
      obtain ⟨only, rfl⟩ := List.getElem?_eq_some_iff.mp found
      rw [List.length_singleton] at only
      simp only [List.getElem_singleton]
      omega
  · simp [last]
  · rw [List.length_append]
    exact Nat.lt_add_right _ valid.current

theorem exit {rbx : Nat} (valid : Table sched table) (ran : syscallExit sched rbx = .ok after) :
    ∃ process, table[sched.currentPid]? = some process ∧
      Table after (table.set sched.currentPid
        { process with returnValue := BitVec.ofNat 32 rbx, state := .waitingForDeath }) ∧
      after.currentPid = sched.currentPid := by
  obtain ⟨process, got, rest⟩ := bind_ok ran
  obtain rfl := Except.ok.inj rest
  have found := valid.running got
  have pid := valid.pids _ _ found
  exact ⟨process, found, valid.set pid, rfl⟩

theorem getpid {pid : Nat} (valid : Table sched table) (ran : syscallGetpid sched = .ok pid) :
    pid = sched.currentPid := by
  obtain ⟨process, got, rest⟩ := bind_ok ran
  obtain rfl := Except.ok.inj rest
  exact valid.pids _ _ (valid.running got)

theorem by_pid {pid found : Nat} (valid : Table sched table) (ran : schedGetByPid sched pid = .ok (some found)) :
    found = pid ∧ ∃ process, table[pid]? = some process ∧ process.state = .running := by
  unfold schedGetByPid at ran
  split at ran
  next inside =>
    obtain ⟨process, got, rest⟩ := bind_ok ran
    rw [valid.shows.length] at inside
    have answer := Except.ok.inj rest
    split at answer
    next alive => exact ⟨(Option.some.inj answer).symm, process, valid.get got inside, alive⟩
    next => cases answer
  next => cases ran

theorem seek {fuel : Nat} (valid : Table sched table) (ran : seekRunning fuel sched = .ok after) :
    Table after table ∧ ∃ process, table[after.currentPid]? = some process ∧ process.state = .running := by
  induction fuel generalizing sched with
  | zero => cases ran
  | succ fuel ih =>
    have next : Table (nextPid sched) table := by
      refine ⟨valid.shows, valid.pids, valid.last, ?_⟩
      have current := valid.current
      have length := valid.shows.length
      unfold nextPid
      dsimp only
      split <;> omega
    obtain ⟨process, got, rest⟩ := bind_ok ran
    split at rest
    next => exact ih next rest
    next alive =>
      obtain rfl := Except.ok.inj rest
      exact ⟨next, process, next.running got, not_not.mp alive⟩

/-- A tick that switches: it saves the frame of the process it takes the
processor from and loads what the next one holds. -/
structure Switched (sched : Sched) (table : List Process) (regs installed : Registers) (after : Sched) : Prop where
  due : switchTick ≤ sched.tick
  saved : ∃ process, table[sched.currentPid]? = some process ∧
    Table after (table.set sched.currentPid { process with regs })
  resumed : ∃ next, after.processes.get after.currentPid = .ok next ∧ next.state = .running ∧ installed = next.regs ∧
    after.cr3 = vmmSwitchSpace next.pml
  bases : after.gsBase = after.currentPid ∧ after.kernGsBase = after.currentPid

theorem yield_cases {regs installed : Registers} (valid : Table sched table)
    (ran : yieldTask sched regs = .ok (installed, after)) :
    sched.tick < switchTick ∧ installed = regs ∧ after = { sched with tick := sched.tick + 1 } ∨
      Switched sched table regs installed after := by
  unfold yieldTask at ran
  dsimp only at ran
  split at ran
  next due =>
    obtain ⟨saved, save, rest⟩ := bind_ok ran
    obtain ⟨process, got, saving⟩ := bind_ok save
    obtain rfl := Except.ok.inj saving
    have found : table[sched.currentPid]? = some process := valid.get got valid.current
    have pid := valid.pids _ _ found
    have counted : Table { sched with tick := 0 } table := ⟨valid.shows, valid.pids, valid.last, valid.current⟩
    have kept : Table { sched with tick := 0, processes := sched.processes.modify sched.currentPid { process with regs } }
        (table.set sched.currentPid { process with regs }) := counted.set pid
    obtain ⟨sought, seeking, rest⟩ := bind_ok rest
    obtain ⟨chosen, next, where_, alive⟩ := kept.seek seeking
    have loads := chosen.shows.get_some where_
    obtain ⟨⟨loaded, switched⟩, switching, rest⟩ := bind_ok rest
    obtain ⟨target, load, switching⟩ := bind_ok switching
    obtain ⟨rfl, rfl⟩ := Prod.mk.inj (Except.ok.inj switching)
    obtain ⟨again, reload, rest⟩ := bind_ok rest
    obtain ⟨rfl, rfl⟩ := Prod.mk.inj (Except.ok.inj rest)
    obtain rfl := Except.ok.inj (load.symm.trans loads)
    obtain rfl := Except.ok.inj (reload.symm.trans loads)
    exact .inr ⟨Nat.le_of_succ_le_succ due, ⟨process, found, chosen.shows, chosen.pids, chosen.last, chosen.current⟩,
      ⟨_, loads, alive, rfl, rfl⟩, rfl, rfl⟩
  next early =>
    obtain ⟨rfl, rfl⟩ := Prod.mk.inj (Except.ok.inj ran)
    refine .inl ⟨?_, rfl, rfl⟩
    omega

theorem yield {regs resumed : Registers} (valid : Table sched table)
    (ran : yieldTask sched regs = .ok (resumed, after)) :
    Table after table ∧ after.currentPid = sched.currentPid ∨
      ∃ process, table[sched.currentPid]? = some process ∧
        Table after (table.set sched.currentPid { process with regs }) ∧
        ∃ next, table[after.currentPid]? = some next ∧ next.state = .running := by
  rcases valid.yield_cases ran with ⟨-, -, rfl⟩ | switch
  · exact .inl ⟨⟨valid.shows, valid.pids, valid.last, valid.current⟩, rfl⟩
  · obtain ⟨process, found, saved⟩ := switch.saved
    obtain ⟨next, got, alive, -, -⟩ := switch.resumed
    refine .inr ⟨process, found, saved, ?_⟩
    have member := saved.running got
    -- Saving the registers changes no state.
    by_cases same : after.currentPid = sched.currentPid
    · rw [same, List.getElem?_set_self valid.current] at member
      rw [← Option.some.inj member] at alive
      exact ⟨process, same ▸ found, alive⟩
    · rw [List.getElem?_set_ne (Ne.symm same)] at member
      exact ⟨next, member, alive⟩

theorem send_expand {msg sent : Ipc} {proc : Nat} {answer : Option Nat} (valid : Table sched table)
    (ran : ipcsendExpand sched msg answer = .ok (sent, proc, after)) :
    proc = msg.receiver ∧ sent = { msg with sender := sched.currentPid } ∧
      ∃ target mailbox, table[proc]? = some target ∧ target.state = .running ∧
        vecExpand target.mailbox answer = .ok mailbox ∧
        Table after (table.set proc { target with mailbox }) ∧ after.currentPid = sched.currentPid := by
  obtain ⟨caller, got, rest⟩ := bind_ok ran
  obtain ⟨found, asked, rest⟩ := bind_ok rest
  cases found with
  | none => cases rest
  | some place =>
    obtain ⟨rfl, target, member, alive⟩ := valid.by_pid asked
    obtain ⟨process, loaded, rest⟩ := bind_ok rest
    have inside := (List.getElem?_eq_some_iff.mp member).1
    obtain rfl : target = process := Option.some.inj (member.symm.trans (valid.get loaded inside))
    obtain ⟨mailbox, expanded, rest⟩ := bind_ok rest
    have result := Except.ok.inj rest
    simp only [Prod.mk.injEq] at result
    obtain ⟨rfl, rfl, rfl⟩ := result
    have pid := valid.pids _ _ member
    refine ⟨rfl, ?_, target, mailbox, member, alive, expanded, valid.set pid, rfl⟩
    rw [valid.pids _ _ (valid.running got)]

theorem send_store {msg : Ipc} {proc : Nat} (valid : Table sched table) (inside : proc < table.length)
    (ran : ipcsendStore sched proc msg = .ok after) :
    ∃ target mailbox, table[proc]? = some target ∧ vecStore target.mailbox msg = .ok mailbox ∧
      Table after (table.set proc { target with mailbox }) ∧ after.currentPid = sched.currentPid := by
  obtain ⟨target, got, rest⟩ := bind_ok ran
  obtain ⟨mailbox, stored, rest⟩ := bind_ok rest
  obtain rfl := Except.ok.inj rest
  have member := valid.get got inside
  have pid := valid.pids _ _ member
  exact ⟨target, mailbox, member, stored, valid.set pid, rfl⟩

theorem receive_test {ready : Bool} (valid : Table sched table) (ran : ipcrcvTest sched = .ok ready) :
    ∃ process, table[sched.currentPid]? = some process ∧ (ready = true ↔ process.mailbox.length ≠ 0) := by
  obtain ⟨process, got, rest⟩ := bind_ok ran
  obtain rfl := Except.ok.inj rest
  exact ⟨process, valid.running got, by simp⟩

theorem receive_pop {msg : Ipc} (valid : Table sched table) (ran : ipcrcvPop sched = .ok (msg, after)) :
    ∃ process mailbox, table[sched.currentPid]? = some process ∧ vecPop process.mailbox = .ok (msg, mailbox) ∧
      Table after (table.set sched.currentPid { process with mailbox }) ∧ after.currentPid = sched.currentPid := by
  obtain ⟨process, got, rest⟩ := bind_ok ran
  obtain ⟨⟨popped, mailbox⟩, pop, rest⟩ := bind_ok rest
  obtain ⟨rfl, rfl⟩ := Prod.mk.inj (Except.ok.inj rest)
  have found := valid.running got
  have pid := valid.pids _ _ found
  exact ⟨process, mailbox, found, pop, valid.set pid, rfl⟩

end Table

end Navy
