import Navy.Proofs.Messages

/-! What a history says about deliveries: every message a process obtains was
sent to it, by the sender it names, and what queues up comes out newest first. -/

namespace Navy

open Outcome StackMail

/-- The call at `step` asked for `pid` to get `got`. -/
def CameFrom (history : List Record) (step pid : Nat) (got : Ipc) : Prop :=
  ∃ caller asked, history[step]? = some (.sent caller asked) ∧ asked.receiver = pid ∧ got = ⟨caller, pid, asked.data⟩

/-- `source` tells for each receive which send it answers. -/
structure Matching (history : List Record) (source : Nat → Nat) : Prop where
  earlier : ∀ reply pid got, history[reply]? = some (.received pid got) → source reply < reply
  came : ∀ reply pid got, history[reply]? = some (.received pid got) → CameFrom history (source reply) pid got
  once : ∀ one two pid other got msg, history[one]? = some (.received pid got) →
    history[two]? = some (.received other msg) → source one = source two → one = two

def Obtains (history : List Record) (source : Nat → Nat) (reply step : Nat) : Prop :=
  (∃ pid got, history[reply]? = some (.received pid got)) ∧ source reply = step

private theorem trace_received {run : Sched × List Record} {mail : Mail Nat Ipc} (simulates : Simulates run mail)
    {reply pid : Nat} {got : Ipc} :
    mail.trace[reply]? = some (.received pid got) ↔ run.2[reply]? = some (.received pid got) := by
  rw [simulates.trace, List.getElem?_map]
  cases run.2[reply]? with
  | none => simp
  | some record => cases record <;> simp [Record.event]

private theorem trace_sent {run : Sched × List Record} {mail : Mail Nat Ipc} (simulates : Simulates run mail)
    {step pid : Nat} {got : Ipc} : mail.Letter step pid got ↔ CameFrom run.2 step pid got := by
  unfold Mail.Letter CameFrom
  rw [simulates.trace, List.getElem?_map]
  cases run.2[step]? with
  | none => simp
  | some record =>
    cases record with
    | sent caller msg =>
      simp only [Option.map_some, Option.some.injEq, Record.event, Event.sent.injEq, Record.sent.injEq]
      constructor
      · rintro ⟨rfl, rfl⟩
        exact ⟨caller, msg, ⟨rfl, rfl⟩, rfl, rfl⟩
      · rintro ⟨_, _, ⟨rfl, rfl⟩, rfl, rfl⟩
        exact ⟨rfl, rfl⟩
    | received caller msg => simp [Record.event]
    | other => simp [Record.event]

/-- The run's matching, with the order in which it empties the mailboxes. -/
private theorem run_matching {run : Sched × List Record} {mail : Mail Nat Ipc} (simulates : Simulates run mail) :
    ∃ source, Matching run.2 source ∧ ∀ reply step, Obtains run.2 source reply step ↔
      (reply, step) ∈ mail.answered := by
  have valid := simulates.reached.valid
  obtain ⟨source, answered⟩ := valid.sources
  have pairs (reply pid : Nat) (got : Ipc) (received : run.2[reply]? = some (.received pid got)) :
      (reply, source reply) ∈ mail.answered := answered reply pid got ((trace_received simulates).mpr received)
  refine ⟨source, ⟨?_, ?_, ?_⟩, ?_⟩
  · exact fun reply pid got received => (valid.answers _ (pairs reply pid got received)).later
  · intro reply pid got received
    obtain ⟨-, -, owner, content, same, letter⟩ := valid.answers _ (pairs reply pid got received)
    rw [(trace_received simulates).mpr received] at same
    obtain ⟨rfl, rfl⟩ : pid = owner ∧ got = content := by simpa using same
    exact (trace_sent simulates).mp letter
  · intro one two pid other got msg first last same
    have member := pairs two other msg last
    rw [← same] at member
    exact valid.answered_once (pairs one pid got first) member
  · intro reply step
    constructor
    · rintro ⟨⟨pid, got, received⟩, rfl⟩
      exact pairs reply pid got received
    · intro member
      obtain ⟨-, -, owner, content, received, -⟩ := valid.answers _ member
      have found := (trace_received simulates).mp received
      exact ⟨⟨owner, content, found⟩, valid.answered_unique (pairs reply owner content found) member⟩

section Runs

variable {cr3 : Nat} {answer : Option Nat} {actions : List Action} {run : Sched × List Record}

/-- Of two messages to one process, whoever sent them, the older comes out
before the newer exactly when it was out before the newer was sent. -/
theorem newest_queued_first (ran : runActions cr3 answer actions = .ok run) : ∃ source, Matching run.2 source ∧
    ∀ older newer pid one two reply, CameFrom run.2 older pid one → CameFrom run.2 newer pid two → older < newer →
      Obtains run.2 source reply newer →
      ((∃ before, before < reply ∧ Obtains run.2 source before older) ↔
        ∃ before, before < newer ∧ Obtains run.2 source before older) := by
  obtain ⟨mail, simulates⟩ := run_simulates ran
  obtain ⟨source, matching, answered⟩ := run_matching simulates
  refine ⟨source, matching, fun older newer pid one two reply first last sent obtained => ?_⟩
  simp only [answered] at obtained ⊢
  exact simulates.reached.valid.older_first ((trace_sent simulates).mpr first)
    ((trace_sent simulates).mpr last) sent obtained

/-- Receives answer distinct earlier sends to their caller, mailboxes hold only
what was sent to their owner, and no other process takes anything out of them. -/
theorem messages_authentic (ran : runActions cr3 answer actions = .ok run) :
    (∃ source, Matching run.2 source) ∧
    (∀ pid process, pid < run.1.processes.length → run.1.processes.get pid = .ok process →
      process.pid = pid ∧ ∃ items, process.mailbox.Shows items ∧ ∀ got ∈ items, ∃ step, CameFrom run.2 step pid got) ∧
    ∀ action after pid process, turn run action = .ok after → pid < run.1.processes.length →
      run.1.processes.get pid = .ok process →
      (pid ≠ run.1.currentPid ∨ ∀ got, after.2 ≠ run.2 ++ [.received pid got]) →
      ∃ next more, after.1.processes.get pid = .ok next ∧
        ∀ items, process.mailbox.Shows items → next.mailbox.Shows (items ++ more) := by
  obtain ⟨mail, simulates⟩ := run_simulates ran
  obtain ⟨table, valid, agrees⟩ := simulates.table
  obtain ⟨source, matching, -⟩ := run_matching simulates
  refine ⟨⟨source, matching⟩, fun pid process inside got =>
    ?_, fun action after pid process stepped inside got apart => ?_⟩
  · rw [valid.shows.length] at inside
    have found := valid.get got inside
    obtain ⟨items, shows, letters⟩ := agrees.boxes pid process found
    refine ⟨valid.pids pid process found, items, shows, fun msg member => ?_⟩
    obtain ⟨place, bound, rfl⟩ := List.mem_iff_getElem.mp member
    have same := letters.length_eq
    have letter := letters.get (by omega) bound
    exact ⟨_, (trace_sent simulates).mp letter⟩
  · rw [valid.shows.length] at inside
    obtain ⟨⟨record, sched⟩, acted, rest⟩ := bind_ok stepped
    obtain rfl := Except.ok.inj rest
    obtain ⟨result, changed, effect⟩ := valid.act acted
    have only : pid ≠ run.1.currentPid ∨ ∀ got, record ≠ .received pid got := by
      apply apart.imp_right
      intro never got same
      exact never got (by rw [same])
    obtain ⟨next, more, member, kept⟩ := effect.mailbox_kept (valid.get got inside) only
    exact ⟨next, more, changed.shows.get_some member, kept⟩

/-- The processes 1 and 2 after boot, with process 1 running. -/
def pair : List Action :=
  [.create 0 0 0 ⟨0, 0⟩ 0 0 0 0 heapBlock, .create 0 0 0 ⟨0, 0⟩ 0 0 0 0 heapBlock] ++ List.replicate 10 (.tick .zero)

/-- Process 1 sends 7 and 8 to process 2, which then receives once. -/
def overtaking : List Action :=
  pair ++ [.send ⟨0, 2, 7⟩ heapBlock, .send ⟨0, 2, 8⟩ heapBlock] ++ List.replicate 10 (.tick .zero) ++ [.receiveSync]

private def overtaken : List Record :=
  List.replicate 12 .other ++ [.sent 1 ⟨0, 2, 7⟩, .sent 1 ⟨0, 2, 8⟩] ++ List.replicate 10 .other ++
    [.received 2 ⟨1, 2, 8⟩]

private theorem overtaking_ran : ∃ run, runActions 0 heapBlock overtaking = .ok run ∧ run.2 = overtaken := by
  have ran : (runActions 0 heapBlock overtaking).map Prod.snd = .ok overtaken := by decide +kernel
  obtain ⟨run, same, history⟩ := map_ok ran
  exact ⟨run, same, history⟩

private theorem overtaken_at {test : Record → Bool} {step : Nat} {record : Record} {only : Nat}
    (found : overtaken[step]? = some record) (holds : test record = true)
    (single : ∀ place, place < 25 → overtaken[place]?.any test = true → place = only) : step = only := by
  apply single
  · exact (List.getElem?_eq_some_iff.mp found).1
  · rw [found]
    exact holds

/-- Messages of one sender to one receiver come out in the order of sending. -/
def Ordered (history : List Record) (source : Nat → Nat) : Prop :=
  ∀ sender older newer first last reply, history[older]? = some (.sent sender first) →
    history[newer]? = some (.sent sender last) → first.receiver = last.receiver → older < newer →
    Obtains history source reply newer → ∃ before, before < reply ∧ Obtains history source before older

theorem second_before_first : ∃ run, runActions 0 heapBlock overtaking = .ok run ∧
    ∀ source, Matching run.2 source → ¬ Ordered run.2 source := by
  obtain ⟨run, ran, history⟩ := overtaking_ran
  refine ⟨run, ran, fun source matching ordered => ?_⟩
  rw [history] at matching ordered
  have received : overtaken[24]? = some (.received 2 ⟨1, 2, 8⟩) := rfl
  have obtained : source 24 = 13 := by
    obtain ⟨caller, asked, sent, -, same⟩ := matching.came 24 2 _ received
    have data : asked.data = 8 := (congrArg Ipc.data same).symm
    let eight : Record → Bool
      | .sent _ asked => asked.data == 8
      | _ => false
    exact overtaken_at sent (show eight (.sent caller asked) = true by simp [eight, data]) (by decide)
  obtain ⟨before, less, ⟨pid, got, other⟩, -⟩ :=
    ordered 1 12 13 _ _ 24 rfl rfl rfl (by decide) ⟨⟨2, _, received⟩, obtained⟩
  let receives : Record → Bool
    | .received _ _ => true
    | _ => false
  have last : before = 24 := overtaken_at other (show receives _ = true by rfl) (by decide)
  omega

/-- In the run above the two messages were queued together. -/
theorem newest_queued_first_overtaking : ∃ run source, runActions 0 heapBlock overtaking = .ok run ∧
    Matching run.2 source ∧
    ∀ reply, Obtains run.2 source reply 13 →
      ((∃ before, before < reply ∧ Obtains run.2 source before 12) ↔ ∃ before, before < 13 ∧
        Obtains run.2 source before 12) := by
  obtain ⟨run, ran, history⟩ := overtaking_ran
  obtain ⟨source, matching, order⟩ := newest_queued_first ran
  have first : CameFrom run.2 12 2 ⟨1, 2, 7⟩ := history ▸ ⟨1, ⟨0, 2, 7⟩, rfl, rfl, rfl⟩
  have last : CameFrom run.2 13 2 ⟨1, 2, 8⟩ := history ▸ ⟨1, ⟨0, 2, 8⟩, rfl, rfl, rfl⟩
  exact ⟨run, source, ran, matching, fun reply => order 12 13 2 _ _ reply first last (by decide)⟩

/-- Process 2 got the message process 1 sent last, and nothing that was not sent to it. -/
theorem messages_authentic_overtaking : ∃ (run : Sched × List Record) (source : Nat → Nat),
    runActions 0 heapBlock overtaking = .ok run ∧ source 24 < 24 ∧ CameFrom run.2 (source 24) 2 ⟨1, 2, 8⟩ := by
  obtain ⟨run, ran, history⟩ := overtaking_ran
  obtain ⟨⟨source, matching⟩, -⟩ := messages_authentic ran
  have received : run.2[24]? = some (.received 2 ⟨1, 2, 8⟩) := history ▸ rfl
  exact ⟨run, source, ran, matching.earlier 24 2 _ received, matching.came 24 2 _ received⟩

end Runs

end Navy
