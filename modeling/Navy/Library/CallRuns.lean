import Navy.Library.Traced

/-! Runs of a component that is called again and again. A call takes its state on
and may give a result back. An abstract component says which calls are allowed and
what they give back, and the events of a call that come from outside may have to
meet an assumption. -/

namespace CallRuns

variable {State View Call Result Event Fault : Type}

/-- Call after call, with the results of all of them. -/
def run (call : State → Call → Traced Event Fault (State × Option Result)) (state : State) :
    List Call → Traced Event Fault (State × List Result)
  | [] => pure (state, [])
  | next :: rest => do
    let first ← call state next
    let others ← run call first.1 rest
    return (others.1, first.2.toList ++ others.2)

/-- The run of the abstract component, `none` where a call was not allowed. -/
def viewRun (call : View → Call → Option (View × Option Result)) (view : View) : List Call → Option (View × List Result)
  | [] => some (view, [])
  | next :: rest => do
    let first ← call view next
    let others ← viewRun call first.1 rest
    return (others.1, first.2.toList ++ others.2)

variable {call : State → Call → Traced Event Fault (State × Option Result)}
  {spec : View → Call → Option (View × Option Result)} {relation : State → View → Prop}
  {assumed promised : Event → Prop}

/-- An allowed call comes back with the result of the abstract one, in a state that
shows the abstract one, and leaves events of the promised kind only. -/
def Simulates (call : State → Call → Traced Event Fault (State × Option Result))
    (spec : View → Call → Option (View × Option Result)) (relation : State → View → Prop)
    (assumed promised : Event → Prop) : Prop :=
  ∀ state view next view' result, relation state view → spec view next = some (view', result) →
    Traced.Only assumed (call state next) →
      (∃ after, (call state next).outcome = .ok (after, result) ∧ relation after view') ∧ Traced.Only promised
      (call state next)

theorem run_simulates (simulates : Simulates call spec relation assumed promised) {calls : List Call} {state : State}
    {view view' : View} {results : List Result} (shows : relation state view)
    (allowed : viewRun spec view calls = some (view', results)) (fine : Traced.Only assumed (run call state calls)) :
    (∃ after, (run call state calls).outcome = .ok (after, results) ∧ relation after view') ∧
      Traced.Only promised (run call state calls) := by
  induction calls generalizing state view results with
  | nil =>
    obtain ⟨rfl, rfl⟩ := Prod.mk.inj (Option.some.inj allowed)
    exact ⟨⟨state, rfl, shows⟩, Traced.only_pure _⟩
  | cons next rest ih =>
    rw [viewRun, Option.bind_eq_bind, Option.bind_eq_some_iff] at allowed
    obtain ⟨first, stepped, allowed⟩ := allowed
    rw [Option.bind_eq_bind, Option.bind_eq_some_iff] at allowed
    obtain ⟨others, went, allowed⟩ := allowed
    obtain ⟨rfl, rfl⟩ := Prod.mk.inj (Option.some.inj allowed)
    rw [run, Traced.only_bind] at fine
    obtain ⟨⟨middle, turn, holds⟩, early⟩ := simulates state view next first.1 first.2 shows stepped fine.1
    have fine' := (Traced.only_bind.mp (fine.2 _ turn)).1
    obtain ⟨⟨after, ran, ends⟩, late⟩ := ih holds went fine'
    refine ⟨⟨after, ?_, ends⟩, ?_⟩
    · rw [run, Traced.outcome_bind, turn, Outcome.ok_bind, Traced.outcome_bind, ran]
      rfl
    · rw [run, Traced.only_bind]
      refine ⟨early, fun value same => ?_⟩
      obtain rfl := Except.ok.inj (turn.symm.trans same)
      exact Traced.only_bind.mpr ⟨late, fun value _ => Traced.only_pure _⟩

end CallRuns
