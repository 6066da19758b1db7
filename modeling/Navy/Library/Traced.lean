import Navy.Library.Outcome

/-! Computations that leave a trace of events and may stop with an error. What
was done before the error stays in the trace. -/

structure Traced (Event Fault α : Type) where
  events : List Event
  outcome : Except Fault α

namespace Traced

variable {Event Fault α β σ : Type}

def pure (value : α) : Traced Event Fault α := ⟨[], .ok value⟩

def bind (first : Traced Event Fault α) (next : α → Traced Event Fault β) : Traced Event Fault β :=
  match first.outcome with
  | .error fault => ⟨first.events, .error fault⟩
  | .ok value => ⟨first.events ++ (next value).events, (next value).outcome⟩

instance : Monad (Traced Event Fault) where
  pure := pure
  bind := bind

/-- One event. -/
def emit (event : Event) : Traced Event Fault Unit := ⟨[event], .ok ()⟩

/-- A step that leaves no event. -/
def silent (outcome : Except Fault α) : Traced Event Fault α := ⟨[], outcome⟩

@[simp] theorem outcome_bind (first : Traced Event Fault α) (next : α → Traced Event Fault β) :
    (first >>= next).outcome = first.outcome >>= fun value => (next value).outcome := by
  show (bind first next).outcome = _
  unfold bind
  cases first.outcome <;> rfl

theorem events_bind {first : Traced Event Fault α} {next : α → Traced Event Fault β} {value : α}
    (ran : first.outcome = .ok value) : (first >>= next).events = first.events ++ (next value).events := by
  show (bind first next).events = _
  unfold bind
  rw [ran]

@[simp] theorem outcome_pure (value : α) : (Pure.pure value : Traced Event Fault α).outcome = .ok value := rfl

@[simp] theorem outcome_silent (outcome : Except Fault α) : (silent outcome : Traced Event Fault α).outcome =
    outcome := rfl

@[simp] theorem outcome_emit (event : Event) : (emit event : Traced Event Fault Unit).outcome = .ok () := rfl

/-- Every event of the trace is of a kind. -/
def Only (kind : Event → Prop) (trace : Traced Event Fault α) : Prop := ∀ event ∈ trace.events, kind event

variable {kind : Event → Prop}

theorem only_pure (value : α) : Only kind (Pure.pure value : Traced Event Fault α) := nofun

theorem only_silent (outcome : Except Fault α) : Only kind (silent outcome : Traced Event Fault α) := nofun

theorem only_emit {event : Event} : Only kind (emit event : Traced Event Fault Unit) ↔ kind event := by
  simp [Only, emit]

theorem only_bind {first : Traced Event Fault α} {next : α → Traced Event Fault β} :
    Only kind (first >>= next) ↔ Only kind first ∧ ∀ value, first.outcome = .ok value → Only kind (next value) := by
  show Only kind (bind first next) ↔ _
  unfold bind
  cases first.outcome with
  | error fault =>
    constructor
    · exact fun only => ⟨only, nofun⟩
    · exact fun both => both.1
  | ok value =>
    constructor
    · intro only
      refine ⟨fun event member => only event (List.mem_append_left _ member), ?_⟩
      rintro _ ⟨⟩
      exact fun event member => only event (List.mem_append_right _ member)
    · rintro ⟨before, after⟩ event member
      rcases List.mem_append.mp member with early | late
      · exact before event early
      · exact after value rfl event late

/-- A loop whose turns leave events of one kind only, as long as it runs. -/
theorem only_foldlM {body : σ → β → Traced Event Fault σ} (kept : σ → Prop) {items : List β}
    (step : ∀ state item, item ∈ items → kept state → Only kind (body state item) ∧
      ∀ after, (body state item).outcome = .ok after → kept after)
    {state : σ} (holds : kept state) : Only kind (items.foldlM body state) := by
  induction items generalizing state with
  | nil => exact only_pure state
  | cons item rest ih =>
    obtain ⟨turn, keeps⟩ := step state item (by simp) holds
    rw [List.foldlM_cons, only_bind]
    exact ⟨turn, fun after ran => ih (fun state item member => step state item (by simp [member])) (keeps after ran)⟩

/-- A loop that came to its end made every turn. -/
theorem only_foldlM_ok {body : σ → β → Traced Event Fault σ} {items : List β} {state after : σ}
    (ran : (items.foldlM body state).outcome = .ok after) (only : Only kind (items.foldlM body state)) {item : β}
    (member : item ∈ items) : ∃ state, Only kind (body state item) := by
  induction items generalizing state with
  | nil => cases member
  | cons first rest ih =>
    rw [List.foldlM_cons] at ran only
    rw [outcome_bind] at ran
    obtain ⟨middle, turn, ran⟩ := Outcome.bind_ok ran
    obtain ⟨early, late⟩ := only_bind.mp only
    rcases List.mem_cons.mp member with rfl | inside
    · exact ⟨state, early⟩
    · exact ih ran (late middle turn) inside

/-- The plain loop behind a traced one. -/
theorem outcome_foldlM (body : σ → β → Traced Event Fault σ) (items : List β) (state : σ) :
    (items.foldlM body state).outcome = items.foldlM (fun state item => (body state item).outcome) state := by
  induction items generalizing state with
  | nil => rfl
  | cons item rest ih =>
    rw [List.foldlM_cons, List.foldlM_cons, outcome_bind]
    congr 1
    funext after
    exact ih after

end Traced
