import Navy.Preempt
import Navy.Proofs.ProcessTable

/-! Mailboxes under preemption. As long as every check leaves room for all the
sends it lets through, capacities hold and no message is lost or doubled. -/

namespace Navy

open Outcome

section InFlight

variable {phase : Nat → Phase} {current count pid : Nat} {next : Phase}

theorem inFlight_succ :
    inFlight phase (count + 1) pid = inFlight phase count pid + ((phase count).sends pid).toNat := by
  unfold inFlight
  rw [List.range_succ, List.countP_append, List.countP_singleton]
  cases (phase count).sends pid <;> rfl

theorem inFlight_outside (outside : count ≤ current) :
    inFlight (Function.update phase current next) count pid = inFlight phase count pid := by
  apply List.countP_congr
  intro sender member
  rw [List.mem_range] at member
  rw [Function.update_of_ne (by omega)]

/-- A process that goes on changes the count by its own phase only. -/
theorem inFlight_update (phase : Nat → Phase) (next : Phase) (pid : Nat) (inside : current < count) :
    inFlight (Function.update phase current next) count pid + ((phase current).sends pid).toNat =
      inFlight phase count pid + (next.sends pid).toNat := by
  induction count with
  | zero => cases inside
  | succ count ih =>
    rw [inFlight_succ, inFlight_succ]
    by_cases last : current = count
    · subst last
      rw [inFlight_outside (Nat.le_refl _), Function.update_self]
      omega
    · have rest := ih (by omega)
      rw [Function.update_of_ne (Ne.symm last)]
      omega

end InFlight

/-- A mailbox of `pid` in order, with room for the sends under way. -/
def Box (state : Preempted) (count pid : Nat) (mailbox : Vec Ipc) : Prop :=
  ∃ items, mailbox.Shows items ∧ (state.received pid ++ items).Perm (state.sent pid) ∧
    items.length + inFlight state.phase count pid ≤ mailbox.capacity ∧ (state.phase pid = .popping → items ≠ [])

structure Sound (state : Preempted) (table : List Process) : Prop where
  boxes : ∀ (pid : Nat) (process : Process), table[pid]? = some process → Box state table.length pid process.mailbox
  outside : ∀ pid, table.length ≤ pid → state.phase pid = .user ∧ state.sent pid = [] ∧ state.received pid = []
  targets : ∀ sender proc msg, state.phase sender = .sending proc msg → proc < table.length

theorem Box.goes_on {state after : Preempted} {count total pid : Nat} {mailbox : Vec Ipc}
    (box : Box state count pid mailbox) (sent : after.sent pid = state.sent pid)
    (received : after.received pid = state.received pid)
    (fewer : inFlight after.phase total pid ≤ inFlight state.phase count pid)
    (pops : after.phase pid = .popping → state.phase pid = .popping) : Box after total pid mailbox := by
  obtain ⟨items, shows, perm, room, some⟩ := box
  refine ⟨items, shows, ?_, by omega, fun popping => some (pops popping)⟩
  rw [received, sent]
  exact perm

theorem Sound.set {state after : Preempted} {table : List Process} {pid : Nat} {process : Process}
    (sound : Sound state table) (inside : pid < table.length) (box : Box after table.length pid process.mailbox)
    (others : ∀ other, other ≠ pid → after.sent other = state.sent other ∧ after.received other = state.received other ∧
      inFlight after.phase table.length other ≤ inFlight state.phase table.length other ∧
      (after.phase other = .popping → state.phase other = .popping))
    (outside : ∀ other, table.length ≤ other → after.phase other = .user)
    (targets : ∀ sender proc msg, after.phase sender = .sending proc msg → proc < table.length) :
    Sound after (table.set pid process) := by
  constructor
  · intro other found member
    rw [List.length_set]
    by_cases same : other = pid
    · subst same
      rw [List.getElem?_set_self inside] at member
      rw [← Option.some.inj member]
      exact box
    · rw [List.getElem?_set_ne (Ne.symm same)] at member
      obtain ⟨sent, received, fewer, pops⟩ := others other same
      exact (sound.boxes other found member).goes_on sent received fewer pops
  · intro other beyond
    rw [List.length_set] at beyond
    obtain ⟨sent, received, -, -⟩ := others other (by omega)
    obtain ⟨-, unsent, unreceived⟩ := sound.outside other beyond
    exact ⟨outside other beyond, sent.trans unsent, received.trans unreceived⟩
  · intro sender proc msg sending
    rw [List.length_set]
    exact targets sender proc msg sending

theorem Preempted.enter_ok {state : Preempted} (ran : state.enter = .ok ()) :
    state.phase state.sched.currentPid = .user := by
  obtain ⟨current, -, rest⟩ := bind_ok ran
  obtain ⟨⟨⟩, -, rest⟩ := bind_ok rest
  split at rest
  next user => exact user
  next => cases rest

namespace Sound

variable {state after : Preempted} {table : List Process}

theorem start {sched : Sched} {process : Process} (empty : process.mailbox = vecInit) :
    Sound (.start sched) [process] := by
  constructor
  · intro pid found member
    obtain rfl := List.mem_singleton.mp (List.mem_of_getElem? member)
    refine ⟨[], empty ▸ .init, .nil, ?_, nofun⟩
    rw [empty]
    show 0 + inFlight (fun _ => .user) 1 pid ≤ 0
    simp [inFlight, Phase.sends]
  · exact fun pid beyond => ⟨rfl, rfl, rfl⟩
  · exact nofun

theorem push {process : Process} {sched : Sched} (sound : Sound state table) (empty : process.mailbox = vecInit) :
    Sound { state with sched } (table ++ [process]) := by
  have more (pid : Nat) : inFlight state.phase (table ++ [process]).length pid =
    inFlight state.phase table.length pid := by
    obtain ⟨user, -, -⟩ := sound.outside table.length (Nat.le_refl _)
    rw [List.length_append, List.length_singleton, inFlight_succ, user]
    rfl
  constructor
  · intro pid found member
    by_cases inside : pid < table.length
    · rw [List.getElem?_append_left inside] at member
      exact (sound.boxes pid found member).goes_on rfl rfl (more pid).le id
    · rw [List.getElem?_append_right (by omega)] at member
      obtain rfl := List.mem_singleton.mp (List.mem_of_getElem? member)
      obtain ⟨user, unsent, unreceived⟩ := sound.outside pid (by omega)
      refine ⟨[], empty ▸ .init, ?_, ?_, fun popping => ?_⟩
      · show (state.received pid ++ []).Perm (state.sent pid)
        rw [unsent, unreceived]
        exact .nil
      · -- Nobody sends to a process that did not exist yet.
        rw [empty]
        show 0 + inFlight state.phase _ pid ≤ 0
        rw [more, Nat.zero_add, Nat.le_zero, inFlight, List.countP_eq_zero]
        intro sender _ sends
        cases sending : state.phase sender with
        | user => simp [sending, Phase.sends] at sends
        | popping => simp [sending, Phase.sends] at sends
        | sending proc msg =>
          have target := sound.targets sender proc msg sending
          simp only [sending, Phase.sends, beq_iff_eq] at sends
          omega
      · exact absurd (user.symm.trans popping) nofun
  · intro pid beyond
    rw [List.length_append, List.length_singleton] at beyond
    exact sound.outside pid (by omega)
  · intro sender proc msg sending
    rw [List.length_append]
    exact Nat.lt_add_right _ (sound.targets sender proc msg sending)

/-- Nothing but a table entry changes, and not its mailbox. -/
theorem keep {sched : Sched} {pid : Nat} {process next : Process} (sound : Sound state table)
    (found : table[pid]? = some process) (same : next.mailbox = process.mailbox) :
    Sound { state with sched } (table.set pid next) := by
  apply sound.set (List.getElem?_eq_some_iff.mp found).1
  · rw [same]
    exact (sound.boxes pid process found).goes_on rfl rfl (Nat.le_refl _) id
  · exact fun other _ => ⟨rfl, rfl, Nat.le_refl _, id⟩
  · exact fun other beyond => (sound.outside other beyond).1
  · exact sound.targets

/-- The current process goes on to `next`, which concerns only the mailbox of `pid`. -/
theorem advance {next : Phase} {pid : Nat} {process : Process} (sound : Sound state table)
    (current : state.sched.currentPid < table.length) (inside : pid < table.length)
    (phase : after.phase = Function.update state.phase state.sched.currentPid next)
    (lists : ∀ other, other ≠ pid → after.sent other = state.sent other ∧ after.received other = state.received other)
    (sends : ∀ other, other ≠ pid → next.sends other = false) (pops : next = .popping → state.sched.currentPid = pid)
    (targets : ∀ proc msg, next = .sending proc msg → proc < table.length)
    (box : Box after table.length pid process.mailbox) : Sound after (table.set pid process) := by
  apply sound.set inside box
  · intro other different
    obtain ⟨sent, received⟩ := lists other different
    have count := inFlight_update state.phase next other current
    rw [sends other different, ← phase] at count
    refine ⟨sent, received, by simp only [Bool.toNat_false] at count; omega, fun popping => ?_⟩
    rw [phase] at popping
    by_cases same : other = state.sched.currentPid
    · subst same
      rw [Function.update_self] at popping
      exact absurd (pops popping) different
    · rwa [Function.update_of_ne same] at popping
  · intro other beyond
    rw [phase, Function.update_of_ne (by omega)]
    exact (sound.outside other beyond).1
  · intro sender proc msg sending
    rw [phase] at sending
    by_cases same : sender = state.sched.currentPid
    · subst same
      rw [Function.update_self] at sending
      exact targets proc msg sending
    · rw [Function.update_of_ne same] at sending
      exact sound.targets sender proc msg sending

theorem check {msg : Ipc} {proc : Nat} {answer : Option Nat} {sched : Sched} (valid : Table state.sched table)
    (sound : Sound state table) (user : state.phase state.sched.currentPid = .user)
    (roomy : Roomy state (.check msg answer)) {filled : Ipc}
    (ran : ipcsendExpand state.sched msg answer = .ok (filled, proc, sched)) :
    ∃ result, Table sched result ∧ Sound { state.become (.sending proc filled) with sched } result := by
  obtain ⟨rfl, -, target, mailbox, found, -, expanded, done, -⟩ := valid.send_expand ran
  have inside := (List.getElem?_eq_some_iff.mp found).1
  refine ⟨_, done, sound.advance valid.current inside rfl (fun _ _ => ⟨rfl, rfl⟩) ?_ nofun ?_ ?_⟩
  · intro other different
    simpa [Phase.sends] using Ne.symm different
  · rintro proc msg ⟨⟩
    exact inside
  · obtain ⟨items, shows, perm, -, some⟩ := sound.boxes _ _ found
    obtain ⟨-, capacity, -⟩ := vecExpand_ok expanded
    refine ⟨items, shows.expand expanded, perm, ?_, fun popping => some ?_⟩
    · have count := inFlight_update state.phase (.sending msg.receiver filled) msg.receiver valid.current
      have room := roomy target (valid.shows.get_some found)
      simp only [user, Phase.sends, beq_self_eq_true, Bool.toNat_true, Bool.toNat_false] at count
      rw [valid.shows.length, shows.length] at room
      rw [capacity]
      show items.length + inFlight (Function.update state.phase _ _) table.length msg.receiver ≤ _
      omega
    · by_cases same : msg.receiver = state.sched.currentPid
      · simp only [Preempted.become, same, Function.update_self] at popping
        cases popping
      · simpa only [Preempted.become, Function.update_of_ne same] using popping

theorem store {msg : Ipc} {proc : Nat} {sched : Sched} (valid : Table state.sched table)
    (sound : Sound state table) (sending : state.phase state.sched.currentPid = .sending proc msg)
    (ran : ipcsendStore state.sched proc msg = .ok sched) :
    ∃ result, Table sched result ∧ Sound { state.become .user with
      sched, sent := Function.update state.sent proc (state.sent proc ++ [msg]) } result := by
  have inside := sound.targets _ _ _ sending
  obtain ⟨target, mailbox, found, stored, done, -⟩ := valid.send_store inside ran
  refine ⟨_, done, sound.advance valid.current inside rfl ?_ (fun _ _ => rfl) nofun nofun ?_⟩
  · exact fun other different => ⟨Function.update_of_ne different _ _, rfl⟩
  · obtain ⟨items, shows, perm, room, -⟩ := sound.boxes _ _ found
    have capacity : mailbox.capacity = target.mailbox.capacity := by
      rw [(vecStore_ok stored).2]
    refine ⟨items ++ [msg], shows.store stored, ?_, ?_, fun _ => by simp⟩
    · simp only [Function.update_self]
      rw [← List.append_assoc]
      exact perm.append_right [msg]
    · have count := inFlight_update state.phase .user proc valid.current
      simp only [sending, Phase.sends, beq_self_eq_true, Bool.toNat_true, Bool.toNat_false] at count
      rw [capacity, List.length_append, List.length_singleton]
      show _ + inFlight (Function.update state.phase _ _) table.length proc ≤ _
      omega

theorem test (valid : Table state.sched table) (sound : Sound state table)
    (user : state.phase state.sched.currentPid = .user) (ran : ipcrcvTest state.sched = .ok true) :
    Sound (state.become .popping) table := by
  obtain ⟨process, found, some⟩ := valid.receive_test ran
  obtain ⟨inside, same⟩ := List.getElem?_eq_some_iff.mp found
  have unchanged : table.set state.sched.currentPid process = table := by
    rw [← same, List.set_getElem_self]
  rw [← unchanged]
  refine sound.advance valid.current inside rfl (fun _ _ => ⟨rfl, rfl⟩) (fun _ _ => rfl) (fun _ => rfl) nofun ?_
  obtain ⟨items, shows, perm, room, -⟩ := sound.boxes _ _ found
  refine ⟨items, shows, perm, ?_, ?_⟩
  · have count := inFlight_update state.phase .popping state.sched.currentPid valid.current
    simp only [user, Phase.sends, Bool.toNat_false] at count
    show _ + inFlight (Function.update state.phase _ _) table.length _ ≤ _
    omega
  · rintro - rfl
    exact some.mp rfl shows.length

theorem pop {msg : Ipc} {sched : Sched} (valid : Table state.sched table) (sound : Sound state table)
    (popping : state.phase state.sched.currentPid = .popping) (ran : ipcrcvPop state.sched = .ok (msg, sched)) :
    ∃ result, Table sched result ∧ Sound { state.become .user with
      sched, received := Function.update state.received state.sched.currentPid
        (state.received state.sched.currentPid ++ [msg]) } result := by
  obtain ⟨process, mailbox, found, popped, done, -⟩ := valid.receive_pop ran
  have inside := (List.getElem?_eq_some_iff.mp found).1
  refine ⟨_, done, sound.advance valid.current inside rfl ?_ (fun _ _ => rfl) nofun nofun ?_⟩
  · exact fun other different => ⟨rfl, Function.update_of_ne different _ _⟩
  · obtain ⟨items, shows, perm, room, -⟩ := sound.boxes _ _ found
    obtain ⟨rest, rfl, left, same⟩ := shows.pop popped
    refine ⟨rest, left, ?_, ?_, ?_⟩
    · simp only [Function.update_self, List.append_assoc]
      exact (List.perm_append_comm.append_left _).trans perm
    · have count := inFlight_update state.phase .user state.sched.currentPid valid.current
      simp only [popping, Phase.sends, Bool.toNat_false] at count
      rw [List.length_append] at room
      rw [same]
      show _ + inFlight (Function.update state.phase _ _) table.length _ ≤ process.mailbox.capacity
      omega
    · simp only [Preempted.become, Function.update_self]
      exact nofun

theorem move {next : Move} (valid : Table state.sched table) (sound : Sound state table) (roomy : Roomy state next)
    (ran : move state next = .ok after) : ∃ result, Table after.sched result ∧ Sound after result := by
  cases next with
  | create pml rip bstack stack arg1 arg2 arg3 arg4 answer =>
    obtain ⟨sched, pushed, rest⟩ := bind_ok ran
    obtain rfl := Except.ok.inj rest
    exact ⟨_, (valid.push pushed).1, sound.push rfl⟩
  | exit rbx =>
    obtain ⟨⟨⟩, -, rest⟩ := bind_ok ran
    obtain ⟨sched, exited, rest⟩ := bind_ok rest
    obtain rfl := Except.ok.inj rest
    obtain ⟨process, found, done, -⟩ := valid.exit exited
    exact ⟨_, done, sound.keep found rfl⟩
  | tick regs =>
    obtain ⟨⟨resumed, sched⟩, yielded, rest⟩ := bind_ok ran
    obtain rfl := Except.ok.inj rest
    rcases valid.yield yielded with ⟨same, -⟩ | ⟨process, found, done, -⟩
    · exact ⟨table, same, sound.boxes, sound.outside, sound.targets⟩
    · exact ⟨_, done, sound.keep found rfl⟩
  | check msg answer =>
    obtain ⟨⟨⟩, entered, rest⟩ := bind_ok ran
    obtain ⟨⟨filled, proc, sched⟩, checked, rest⟩ := bind_ok rest
    obtain rfl := Except.ok.inj rest
    exact sound.check valid (Preempted.enter_ok entered) roomy checked
  | store =>
    unfold Navy.move at ran
    dsimp only at ran
    split at ran
    next proc msg sending =>
      obtain ⟨sched, stored, rest⟩ := bind_ok ran
      obtain rfl := Except.ok.inj rest
      exact sound.store valid sending stored
    next => cases ran
  | test sync =>
    obtain ⟨⟨⟩, entered, rest⟩ := bind_ok ran
    obtain ⟨ready, tested, rest⟩ := bind_ok rest
    cases ready with
    | true =>
      obtain rfl := Except.ok.inj rest
      exact ⟨table, valid, sound.test valid (Preempted.enter_ok entered) tested⟩
    | false =>
      obtain rfl := Except.ok.inj rest
      refine ⟨table, ?_, sound.boxes, sound.outside, sound.targets⟩
      cases sync with
      | true => exact ⟨valid.shows, valid.pids, valid.last, valid.current⟩
      | false => exact valid
  | pop =>
    unfold Navy.move at ran
    dsimp only at ran
    split at ran
    next popping =>
      obtain ⟨⟨msg, sched⟩, popped, rest⟩ := bind_ok ran
      obtain rfl := Except.ok.inj rest
      exact sound.pop valid popping popped
    next => cases ran

end Sound

theorem PreemptedRun.sound {state : Preempted} (run : PreemptedRun Roomy state) :
    ∃ table, Table state.sched table ∧ Sound state table := by
  induction run with
  | boot ran => exact ⟨_, .init ran, .start rfl⟩
  | step before fine ran ih =>
    obtain ⟨table, valid, sound⟩ := ih
    exact sound.move valid fine ran

/-- Where every check leaves room for all the sends it lets through, no store
leaves its mailbox and nothing sent is lost or doubled. -/
theorem roomy_mail_kept {state : Preempted} (run : PreemptedRun Roomy state) :
    ∀ pid process, pid < state.sched.processes.length → state.sched.processes.get pid = .ok process →
      process.mailbox.length ≤ process.mailbox.capacity ∧
      (∀ sender msg, state.phase sender = .sending pid msg → process.mailbox.length < process.mailbox.capacity) ∧
      (state.phase pid = .popping → 0 < process.mailbox.length) ∧
      ∃ items, process.mailbox.Shows items ∧ (state.received pid ++ items).Perm (state.sent pid) := by
  obtain ⟨table, valid, sound⟩ := run.sound
  intro pid process inside got
  rw [valid.shows.length] at inside
  obtain ⟨items, shows, perm, room, some⟩ := sound.boxes pid process (valid.get got inside)
  rw [shows.length]
  refine ⟨by omega, fun sender msg sending => ?_, fun popping => ?_, items, shows, perm⟩
  · have exists_ : sender < table.length := by
      by_contra beyond
      rw [(sound.outside sender (by omega)).1] at sending
      cases sending
    have counted : 0 < inFlight state.phase table.length pid :=
      List.countP_pos_iff.mpr ⟨sender, List.mem_range.mpr exists_, by simp [sending, Phase.sends]⟩
    omega
  · exact List.length_pos_iff.mpr (some popping)

private def roomyMove (state : Preempted) (next : Move) : Checked Preempted := do
  check (Roomy state next) .assertion
  move state next

private theorem PreemptedRun.roomy_moves {state after : Preempted} {moves : List Move} (run : PreemptedRun Roomy state)
    (ran : moves.foldlM roomyMove state = .ok after) : PreemptedRun Roomy after := by
  refine foldlM_keeps (fun state next after _ before stepped => ?_) run ran
  obtain ⟨⟨⟩, checked, stepped⟩ := bind_ok stepped
  exact .step before (check_ok checked) stepped

/-- Processes 2 and 3 send to process 1 one after the other, and it receives once. -/
private def taking : List Move :=
  let ticks := List.replicate 10 (.tick .zero)
  List.replicate 3 (.create 0 0 0 ⟨0, 0⟩ 0 0 0 0 heapBlock) ++ ticks ++ ticks ++ [.check ⟨0, 1, 7⟩ heapBlock, .store] ++
    ticks ++ [.check ⟨0, 1, 8⟩ heapBlock, .store] ++ ticks ++ ticks ++ [.test true, .pop]

private theorem taking_ran : (schedInit .zero 0 heapBlock >>= fun sched => taking.foldlM roomyMove (.start sched)).map
    (fun state => (state.sent 1, state.received 1, (state.sched.processes.get 1).isOk, state.sched.processes.length)) =
    .ok ([⟨2, 1, 7⟩, ⟨3, 1, 8⟩], [⟨3, 1, 8⟩], true, 4) := by decide +kernel

theorem roomy_mail_kept_taking : ∃ (process : Process) (items : List Ipc),
    process.mailbox.Shows items ∧ ([⟨3, 1, 8⟩] ++ items : List Ipc).Perm [⟨2, 1, 7⟩, ⟨3, 1, 8⟩] := by
  obtain ⟨state, ran, shown⟩ := map_ok taking_ran
  obtain ⟨sched, boot, rest⟩ := bind_ok ran
  simp only [Prod.mk.injEq] at shown
  obtain ⟨sent, received, got, length⟩ := shown
  obtain ⟨process, got⟩ := exists_of_isOk _ got
  obtain ⟨-, -, -, items, shows, perm⟩ :=
    roomy_mail_kept ((PreemptedRun.boot boot).roomy_moves rest) 1 process (by omega) got
  rw [sent, received] at perm
  exact ⟨process, items, shows, perm⟩

/-- Processes 2 and 3 each check the empty mailbox of process 1, then each store. -/
def race : List Move :=
  let ticks := List.replicate 10 (.tick .zero)
  List.replicate 3 (.create 0 0 0 ⟨0, 0⟩ 0 0 0 0 heapBlock) ++ ticks ++ ticks ++ [.check ⟨0, 1, 7⟩ heapBlock] ++
    ticks ++ [.check ⟨0, 1, 8⟩ heapBlock] ++ ticks ++ ticks ++ ticks ++ [.store] ++ ticks

theorem PreemptedRun.moves {state after : Preempted} {moves : List Move} (run : PreemptedRun (fun _ _ => True) state)
    (ran : moves.foldlM move state = .ok after) : PreemptedRun (fun _ _ => True) after :=
  foldlM_keeps (fun _ _ _ _ before stepped => .step before trivial stepped) run ran

private def overrun (state : Preempted) : Nat × Bool × Checked Unit × Checked (Nat × Nat) :=
  (state.sched.currentPid, (state.phase 3).sends 1, (move state .store).map fun _ => (),
    (state.sched.processes.get 1).map fun process => (process.mailbox.length, process.mailbox.capacity))

private theorem race_ran : (schedInit .zero 0 heapBlock >>= fun sched => race.foldlM move (.start sched)).map overrun =
    .ok (3, true, .error .outOfBounds, .ok (1, 1)) := by decide +kernel

/-- The second store of the race goes to index 1 of a mailbox of capacity 1. -/
theorem race_overruns : ∃ state, PreemptedRun (fun _ _ => True) state ∧ state.sched.currentPid = 3 ∧
    (∃ msg, state.phase 3 = .sending 1 msg) ∧ move state .store = .error .outOfBounds ∧
    ∃ process, state.sched.processes.get 1 = .ok process ∧ process.mailbox.length = 1 ∧
      process.mailbox.capacity = 1 := by
  obtain ⟨state, ran, shown⟩ := map_ok race_ran
  obtain ⟨sched, boot, rest⟩ := bind_ok ran
  simp only [overrun, Prod.mk.injEq] at shown
  obtain ⟨current, sending, stored, box⟩ := shown
  refine ⟨state, (PreemptedRun.boot boot).moves rest, current, ?_, ?_, ?_⟩
  · cases stage : state.phase 3 with
    | user => simp [stage, Phase.sends] at sending
    | popping => simp [stage, Phase.sends] at sending
    | sending proc msg =>
      simp only [stage, Phase.sends, beq_iff_eq] at sending
      exact ⟨msg, by rw [sending]⟩
  · cases result : move state .store with
    | ok after => simp [result, Except.map] at stored
    | error fault =>
      rw [result] at stored
      exact congrArg _ (Except.error.inj stored)
  · obtain ⟨process, got, same⟩ := map_ok box
    exact ⟨process, got, congrArg Prod.fst same, congrArg Prod.snd same⟩

end Navy
