import Mathlib.Init

/-! Inversion and loop rules for computations that may stop with an error. -/

namespace Outcome

variable {ε : Type u} {α β : Type v} {σ : Type w}

@[simp] theorem ok_bind (value : α) (next : α → Except ε β) : (.ok value >>= next) = next value := rfl

theorem bind_ok {first : Except ε α} {next : α → Except ε β} {result : β}
    (ran : (first >>= next) = .ok result) : ∃ value, first = .ok value ∧ next value = .ok result := by
  cases first with
  | error fault => cases ran
  | ok value => exact ⟨value, rfl, ran⟩

theorem exists_of_isOk (result : Except ε α) (returns : result.isOk = true) : ∃ value, result = .ok value := by
  cases result with
  | error fault => cases returns
  | ok value => exact ⟨value, rfl⟩

theorem map_ok {result : Except ε α} {view : α → β} {shown : β} (seen : result.map view = .ok shown) :
    ∃ value, result = .ok value ∧ view value = shown := by
  cases result with
  | error fault => cases seen
  | ok value => exact ⟨value, rfl, Except.ok.inj seen⟩

theorem ite_ok {condition : Prop} [Decidable condition] {fault : ε} {next : Except ε β} {result : β}
    (ran : (if condition then next else .error fault) = .ok result) : condition ∧ next = .ok result := by
  split at ran
  next holds => exact ⟨holds, ran⟩
  next => cases ran

/-- A loop keeps every invariant that its body keeps. -/
theorem foldlM_keeps {body : σ → β → Except ε σ} {kept : σ → Prop} {items : List β}
    (step : ∀ state item after, item ∈ items → kept state → body state item = .ok after → kept after)
    {state after : σ} (holds : kept state) (ran : items.foldlM body state = .ok after) : kept after := by
  induction items generalizing state with
  | nil => cases ran; exact holds
  | cons item rest ih =>
    rw [List.foldlM_cons] at ran
    obtain ⟨middle, first, last⟩ := bind_ok ran
    exact ih (fun state item after member => step state item after (by simp [member]))
      (step state item middle (by simp) holds first) last

/-- A loop seen otherwise runs the same, when the state it came to allows for it. -/
theorem foldlM_seen {body : σ → β → Except ε σ} {view : σ → σ} {kept fine : σ → Prop} {items : List β}
    (step : ∀ state item after, kept state → body state item = .ok after →
      kept after ∧ (fine after → fine state ∧ body (view state) item = .ok (view after)))
    {state after : σ} (holds : kept state) (ran : items.foldlM body state = .ok after) (ends : fine after) :
    fine state ∧ items.foldlM body (view state) = .ok (view after) := by
  induction items generalizing state with
  | nil =>
    cases ran
    exact ⟨ends, rfl⟩
  | cons item rest ih =>
    rw [List.foldlM_cons] at ran
    obtain ⟨middle, first, last⟩ := bind_ok ran
    obtain ⟨kept', turn⟩ := step state item middle holds first
    obtain ⟨fine', others⟩ := ih kept' last
    obtain ⟨fine, seen⟩ := turn fine'
    refine ⟨fine, ?_⟩
    rw [List.foldlM_cons, seen]
    exact others

/-- What every turn of a loop that came back has done for its item. -/
theorem foldlM_each {body : σ → β → Except ε σ} {kept : σ → Prop} {done : β → Prop} {items : List β}
    (step : ∀ state item after, kept state → body state item = .ok after → kept after ∧ done item)
    {state after : σ} (holds : kept state) (ran : items.foldlM body state = .ok after) :
    kept after ∧ ∀ item ∈ items, done item := by
  induction items generalizing state with
  | nil => cases ran; exact ⟨holds, by simp⟩
  | cons item rest ih =>
    rw [List.foldlM_cons] at ran
    obtain ⟨middle, first, last⟩ := bind_ok ran
    obtain ⟨turn, this⟩ := step state item middle holds first
    obtain ⟨finish, others⟩ := ih turn last
    exact ⟨finish, List.forall_mem_cons.mpr ⟨this, others⟩⟩

/-- A loop fails only in the ways its body does. -/
theorem foldlM_fails {body : σ → β → Except ε σ} {faulty : ε → Prop} {items : List β}
    (step : ∀ state item fault, body state item = .error fault → faulty fault)
    {state : σ} {fault : ε} (ran : items.foldlM body state = .error fault) : faulty fault := by
  induction items generalizing state with
  | nil => cases ran
  | cons item rest ih =>
    rw [List.foldlM_cons] at ran
    cases turn : body state item with
    | error other =>
      rw [turn] at ran
      cases ran
      exact step state item _ turn
    | ok middle =>
      rw [turn] at ran
      exact ih ran

/-- A counted loop keeps an invariant that may mention the turns done. -/
theorem foldlM_range_keeps {body : σ → Nat → Except ε σ} (kept : Nat → σ → Prop) {count : Nat}
    (step : ∀ turn state after, turn < count → kept turn state → body state turn = .ok after → kept (turn + 1) after)
    {state after : σ} (start : kept 0 state) (ran : (List.range count).foldlM body state = .ok after) :
    kept count after := by
  induction count generalizing after with
  | zero => cases ran; exact start
  | succ count ih =>
    rw [List.range_succ, List.foldlM_append] at ran
    obtain ⟨middle, first, last⟩ := bind_ok ran
    refine step count middle after (Nat.lt_succ_self count) ?_ (by simpa using last)
    exact ih (fun turn state after inside => step turn state after (by omega)) first

/-- A counted loop returns when every turn does, under an invariant it keeps. -/
theorem foldlM_range_returns {body : σ → Nat → Except ε σ} (kept : Nat → σ → Prop) {count : Nat}
    (step : ∀ turn state, turn < count → kept turn state → ∃ after, body state turn = .ok after ∧ kept (turn + 1) after)
    {state : σ} (start : kept 0 state) : ∃ after, (List.range count).foldlM body state = .ok after ∧
      kept count after := by
  induction count with
  | zero => exact ⟨state, rfl, start⟩
  | succ count ih =>
    obtain ⟨middle, ran, holds⟩ := ih fun turn state inside => step turn state (by omega)
    obtain ⟨after, last, next⟩ := step count middle (Nat.lt_succ_self count) holds
    refine ⟨after, ?_, next⟩
    rw [List.range_succ, List.foldlM_append, ran]
    show (body middle count >>= fun state => pure state) = .ok after
    rw [last]
    rfl

end Outcome
