import Navy.Proofs.Switching

/-! Runs of the scheduler. Every step keeps the process table; what it does to
the list of processes is one of four cases, and the frames follow from them. -/

namespace Navy

open Outcome

/-- What a step makes of the list of processes, with the record it leaves. -/
inductive Acted (sched : Sched) (table : List Process) (after : Sched) : SchedAction → FrameRecord →
  List Process → Prop where
  | quiet {action : SchedAction} (stays : after.currentPid =
    sched.currentPid) : Acted sched table after action .other table
  | switched {regs installed : Registers} {process : Process} (found : table[sched.currentPid]? = some process)
      (switch : Table.Switched sched table regs installed after) :
      Acted sched table after (.tick regs) (.switched sched.currentPid regs after.currentPid installed)
        (table.set sched.currentPid { process with regs })
  | pushed {action : SchedAction} {process : Process} {frame : Registers} (built : process.regs = frame)
      (stays : after.currentPid = sched.currentPid) :
      Acted sched table after action (.pushed table.length frame) (table ++ [process])
  | exited {rbx : Nat} {process : Process} (found : table[sched.currentPid]? = some process)
      (stays : after.currentPid = sched.currentPid) :
      Acted sched table after (.exit rbx) .other
        (table.set sched.currentPid { process with returnValue := BitVec.ofNat 32 rbx, state := .waitingForDeath })

theorem Table.sched_act {sched after : Sched} {table : List Process} {action : SchedAction} {record : FrameRecord}
    (valid : Table sched table) (ran : schedAct sched action = .ok (record, after)) :
    ∃ list, Table after list ∧ Acted sched table after action record list := by
  cases action with
  | tick regs =>
    obtain ⟨⟨installed, yielded⟩, yield, rest⟩ := bind_ok ran
    obtain ⟨rfl, rfl⟩ := Prod.mk.inj (Except.ok.inj rest)
    rcases valid.yield_cases yield with ⟨early, -, rfl⟩ | switch
    · rw [if_neg (Nat.not_le.mpr (Nat.succ_lt_succ early))]
      exact ⟨table, ⟨valid.shows, valid.pids, valid.last, valid.current⟩, .quiet rfl⟩
    · obtain ⟨process, found, saved⟩ := switch.saved
      rw [if_pos (Nat.succ_le_succ switch.due)]
      exact ⟨_, saved, .switched found switch⟩
  | force =>
    obtain ⟨rfl, rfl⟩ := Prod.mk.inj (Except.ok.inj ran)
    exact ⟨table, ⟨valid.shows, valid.pids, valid.last, valid.current⟩, .quiet rfl⟩
  | push pml rip bstack stack arguments answer =>
    obtain ⟨pushed, push, rest⟩ := bind_ok ran
    obtain ⟨rfl, rfl⟩ := Prod.mk.inj (Except.ok.inj rest)
    obtain ⟨grown, stays⟩ := valid.push_arguments push
    rw [valid.shows.length]
    exact ⟨_, grown, .pushed rfl stays⟩
  | exit rbx =>
    obtain ⟨exited, exit, rest⟩ := bind_ok ran
    obtain ⟨rfl, rfl⟩ := Prod.mk.inj (Except.ok.inj rest)
    obtain ⟨process, found, left, stays⟩ := valid.exit exit
    exact ⟨_, left, .exited found stays⟩
  | sweep =>
    obtain ⟨rfl, rfl⟩ := Prod.mk.inj (Except.ok.inj ran)
    exact ⟨table, valid, .quiet rfl⟩

private theorem set_cases {table : List Process} {place pid : Nat} {changed process : Process}
    (member : (table.set place changed)[pid]? = some process) :
    pid = place ∧ process = changed ∨ pid ≠ place ∧ table[pid]? = some process := by
  rw [List.getElem?_set] at member
  split at member
  next same =>
    split at member
    next => exact .inl ⟨same.symm, (Option.some.inj member).symm⟩
    next => cases member
  next other => exact .inr ⟨Ne.symm other, member⟩

/-- No step touches the saved frame of a process but the one switched out, and
none changes which page table a process has. -/
theorem Acted.kept {sched after : Sched} {table list : List Process} {action : SchedAction} {record : FrameRecord}
    {pid : Nat} {process : Process} (acted : Acted sched table after action record list)
    (found : table[pid]? = some process) :
    ∃ kept, list[pid]? = some kept ∧ kept.pml = process.pml ∧
      (kept.regs = process.regs ∨ ∃ saved into installed, record = .switched pid saved into installed) := by
  have inside := (List.getElem?_eq_some_iff.mp found).1
  cases acted with
  | quiet => exact ⟨process, found, rfl, .inl rfl⟩
  | switched running =>
    by_cases same : pid = sched.currentPid
    · subst same
      obtain rfl := Option.some.inj (found.symm.trans running)
      exact ⟨_, List.getElem?_set_self inside, rfl, .inr ⟨_, _, _, rfl⟩⟩
    · exact ⟨process, (List.getElem?_set_ne (Ne.symm same)).trans found, rfl, .inl rfl⟩
  | pushed => exact ⟨process, (List.getElem?_append_left inside).trans found, rfl, .inl rfl⟩
  | exited running =>
    by_cases same : pid = sched.currentPid
    · subst same
      obtain rfl := Option.some.inj (found.symm.trans running)
      exact ⟨_, List.getElem?_set_self inside, rfl, .inl rfl⟩
    · exact ⟨process, (List.getElem?_set_ne (Ne.symm same)).trans found, rfl, .inl rfl⟩

@[simp] theorem lastFrame_pushed (history : List FrameRecord) (pid : Nat) (frame : Registers) :
    lastFrame (history ++ [.pushed pid frame]) = Function.update (lastFrame history) pid (some frame) := by
  simp [lastFrame]

@[simp] theorem lastFrame_switched (history : List FrameRecord) (out into : Nat) (saved installed : Registers) :
    lastFrame (history ++ [.switched out saved into installed]) = Function.update (lastFrame history) out
      (some saved) := by
  simp [lastFrame]

@[simp] theorem lastFrame_other (history : List FrameRecord) : lastFrame (history ++ [.other]) = lastFrame history := by
  simp [lastFrame]

/-- Every process holds the frame last recorded for it. -/
def Framed (history : List FrameRecord) (table : List Process) : Prop :=
  ∀ pid process, table[pid]? = some process → lastFrame history pid = some process.regs

theorem Acted.framed {sched after : Sched} {table list : List Process} {action : SchedAction} {record : FrameRecord}
    {history : List FrameRecord} (acted : Acted sched table after action record list) (framed : Framed history table) :
    Framed (history ++ [record]) list := by
  intro pid process member
  cases acted with
  | quiet =>
    rw [lastFrame_other]
    exact framed pid process member
  | switched found =>
    rw [lastFrame_switched]
    rcases set_cases member with ⟨rfl, rfl⟩ | ⟨other, member⟩
    · rw [Function.update_self]
    · rw [Function.update_of_ne other]
      exact framed pid process member
  | pushed built =>
    rw [lastFrame_pushed]
    by_cases inside : pid < table.length
    · rw [List.getElem?_append_left inside] at member
      rw [Function.update_of_ne (Nat.ne_of_lt inside)]
      exact framed pid process member
    · rw [List.getElem?_append_right (Nat.le_of_not_lt inside)] at member
      obtain ⟨only, rfl⟩ := List.getElem?_eq_some_iff.mp member
      rw [List.length_singleton] at only
      obtain rfl : pid = table.length := by omega
      rw [Function.update_self, List.getElem_singleton, built]
  | exited found =>
    rw [lastFrame_other]
    rcases set_cases member with ⟨rfl, rfl⟩ | ⟨other, member⟩
    · have same := framed _ _ found
      exact same
    · exact framed pid process member

theorem SchedRun.table {meets : Sched → SchedAction → Prop} {sched : Sched} {history : List FrameRecord}
    (run : SchedRun meets sched history) : ∃ table, Table sched table ∧ Framed history table := by
  induction run with
  | boot ran =>
    refine ⟨_, Table.init ran, fun pid process member => ?_⟩
    obtain ⟨only, rfl⟩ := List.getElem?_eq_some_iff.mp member
    have first : pid = 0 := by simpa using only
    subst first
    rfl
  | step before fine ran ih =>
    obtain ⟨table, valid, framed⟩ := ih
    obtain ⟨list, shows, acted⟩ := valid.sched_act ran
    exact ⟨list, shows, acted.framed framed⟩

/-- A pid is the place of its process in the table, so lookups by pid are exact. -/
theorem process_table_consistent {sched : Sched} {history : List FrameRecord}
    (run : SchedRun (fun _ _ => True) sched history) :
    (∀ index, index < sched.processes.length → ∃ process, sched.processes.get index = .ok process ∧
      process.pid = index) ∧
      sched.lastPid = sched.processes.length ∧
      (∃ process, schedCurrentProcess sched = .ok process ∧ process.pid = sched.currentPid) ∧
      ∀ pid, ∃ answer, schedGetByPid sched pid = .ok answer ∧
        ∀ place, answer = some place ↔ place < sched.processes.length ∧
          ∃ process, sched.processes.get place = .ok process ∧ process.pid = pid ∧ process.state = .running := by
  obtain ⟨table, valid, -⟩ := run.table
  have holds (index : Nat) (inside : index < sched.processes.length) :
      ∃ process, sched.processes.get index = .ok process ∧ process.pid = index := by
    rw [valid.shows.length] at inside
    have found := List.getElem?_eq_getElem inside
    exact ⟨_, valid.shows.get_some found, valid.pids _ _ found⟩
  refine ⟨holds, ?_, holds _ ?_, fun pid => ?_⟩
  · rw [valid.last, valid.shows.length]
  · rw [valid.shows.length]
    exact valid.current
  · unfold schedGetByPid
    by_cases inside : pid < sched.processes.length
    · obtain ⟨process, got, named⟩ := holds pid inside
      rw [if_pos inside, got]
      refine ⟨_, rfl, fun place => ⟨fun answered => ?_, fun ⟨there, other, gives, called, alive⟩ => ?_⟩⟩
      · by_cases alive : process.state = .running
        · rw [if_pos alive] at answered
          obtain rfl := Option.some.inj answered
          exact ⟨inside, process, got, named, alive⟩
        · rw [if_neg alive] at answered
          cases answered
      · obtain ⟨held, gives', own⟩ := holds place there
        obtain rfl := Except.ok.inj (gives.symm.trans gives')
        obtain rfl : place = pid := own.symm.trans called
        obtain rfl := Except.ok.inj (gives.symm.trans got)
        exact if_pos alive
    · rw [if_neg inside]
      refine ⟨none, rfl, fun place => ⟨nofun, fun ⟨there, other, gives, called, alive⟩ => ?_⟩⟩
      obtain ⟨held, gives', own⟩ := holds place there
      obtain rfl := Except.ok.inj (gives.symm.trans gives')
      exact absurd (own.symm.trans called ▸ there) inside

theorem two_tasks (meets : Sched → SchedAction → Prop)
    (fine : ∀ sched, meets sched (.push 0x9000 0x400000 0x20000 ⟨0x30000, 16384⟩ (.one 5) (some 0x2000))) :
    ∃ sched, SchedRun meets sched
      [.pushed 0 .zero, .pushed 1 { (newTask 0x9000 0x400000 0x20000 ⟨0x30000, 16384⟩).regs with rdi := 5 }] ∧
      sched.processes.length = 2 ∧ sched.currentPid = 0 ∧ sched.tick = 0 := by
  have boots : SchedRun meets _ _ := .boot (show schedInit .zero 0x1000 (some 0x2000) = .ok _ from rfl)
  exact ⟨_, .step boots (fine _) rfl, rfl, rfl, rfl⟩

theorem process_table_consistent_two :
    ∃ sched, sched.processes.length = 2 ∧ sched.lastPid = 2 ∧ ∃ answer, schedGetByPid sched 7 = .ok answer ∧
      answer ≠ some 7 := by
  obtain ⟨sched, run, two, -⟩ := two_tasks (fun _ _ => True) fun _ => trivial
  obtain ⟨-, last, -, lookup⟩ := process_table_consistent run
  obtain ⟨answer, ran, exact_⟩ := lookup 7
  refine ⟨sched, two, last.trans two, answer, ran, fun found => ?_⟩
  have inside := ((exact_ 7).mp found).1
  omega

/-- A switch saves the frame of the process it leaves, and the one it goes on with
gets back the frame last saved for it, under its own CR3 and its own GS bases. A
tick that does not switch changes no register, and what is not running keeps its
frame and its page tables. -/
theorem contexts_kept {sched after : Sched} {history : List FrameRecord} {action : SchedAction} {record : FrameRecord}
    (run : SchedRun (fun _ _ => True) sched history) (ran : schedAct sched action = .ok (record, after)) :
    (∀ out saved into installed, record = .switched out saved into installed →
      action = .tick saved ∧ out = sched.currentPid ∧ into = after.currentPid ∧
      lastFrame (history ++ [record]) into = some installed ∧
      ∃ process, after.processes.get into = .ok process ∧ process.pid = into ∧
        after.cr3 = vmmSwitchSpace process.pml ∧ after.gsBase = into ∧ after.kernGsBase = into) ∧
    (∀ regs, action = .tick regs → record = .other → yieldTask sched regs = .ok (regs, after)) ∧
    ∀ pid process, pid < sched.processes.length → sched.processes.get pid = .ok process →
      ∃ kept, after.processes.get pid = .ok kept ∧ kept.pml = process.pml ∧
        (kept.regs = process.regs ∨ ∃ saved into installed, record = .switched pid saved into installed) := by
  obtain ⟨table, valid, framed⟩ := run.table
  obtain ⟨list, shows, acted⟩ := valid.sched_act ran
  have framed := acted.framed framed
  refine ⟨fun out saved into installed switched => ?_, fun regs ticks quiet => ?_, fun pid process inside got => ?_⟩
  · subst switched
    cases acted with
    | switched found switch =>
      obtain ⟨next, loads, -, same, space⟩ := switch.resumed
      have member := shows.running loads
      have shown := (framed _ _ member).trans (congrArg some same.symm)
      exact ⟨rfl, rfl, rfl, shown, next, loads, shows.pids _ _ member, space, switch.bases⟩
  · subst ticks quiet
    obtain ⟨⟨installed, yielded⟩, yield, rest⟩ := bind_ok ran
    obtain ⟨record, rfl⟩ := Prod.mk.inj (Except.ok.inj rest)
    rcases valid.yield_cases yield with ⟨-, rfl, rfl⟩ | switch
    · exact yield
    · rw [if_pos (Nat.succ_le_succ switch.due)] at record
      cases record
  · rw [valid.shows.length] at inside
    obtain ⟨kept, member, same⟩ := acted.kept (valid.get got inside)
    exact ⟨kept, shows.shows.get_some member, same⟩

/-- The first switch to a new process installs the frame it was pushed with. -/
theorem contexts_kept_pushed : ∃ sched history record after, SchedRun (fun _ _ => True) sched history ∧
    schedAct sched (.tick .zero) = .ok (record, after) ∧ after.currentPid = 1 ∧ after.gsBase = 1 ∧
    ∃ installed, record = .switched 0 .zero 1 installed ∧ installed.rip = 0x400000 ∧ installed.rdi = 5 := by
  have boots : SchedRun (fun _ _ => True) _ _ := .boot (show schedInit .zero 0x1000 (some 0x2000) = .ok _ from rfl)
  have pushes := boots.step trivial
    (show schedAct _ (.push 0x9000 0x400000 0x20000 ⟨0x30000, 16384⟩ (.one 5) (some 0x2000)) = .ok _ from rfl)
  have forces := pushes.step trivial (show schedAct _ .force = .ok _ from rfl)
  obtain ⟨-, -, -, -, process, -, -, -, base, -⟩ :=
    (contexts_kept forces (show schedAct _ (.tick .zero) = .ok _ from rfl)).1 _ _ _ _ rfl
  exact ⟨_, _, _, _, forces, rfl, rfl, base, _, rfl, rfl, rfl⟩

end Navy
