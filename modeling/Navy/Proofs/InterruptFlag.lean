import Navy.Interrupts

/-! Whether the timer handler can be interrupted. -/

namespace Navy

open LockSections

/-- The flag is clear from a timer interrupt to its return. -/
def TimerMasked (hasFault isScheduler : Bool) (before : Bool) : Prop :=
  ∀ trace, Traces (timerHandler hasFault isScheduler) trace → StaysClear (entryFlag 32 before) trace

/-- The scheduler's own lock turns interrupts on inside the handler, and so does
every sequence of sections that started with them off. -/
theorem timer_masked_iff (hasFault isScheduler before : Bool) :
    (TimerMasked hasFault isScheduler before ↔ hasFault = false ∧ isScheduler = false) ∧
    ∀ (trace : List (Instr KernelLock)) (flag : Bool), Bracketed [] trace →
      (flagAfter flag trace = flag ↔ flag = true ∨ ∀ lock, .acquire lock ∉ trace) := by
  refine ⟨⟨fun masked => ?_, ?_⟩, fun trace flag bracketed => bracketed.flag flag⟩
  · cases hasFault with
    | true =>
      have printed : Traces (timerHandler true isScheduler) [.acquire .arch, .release .arch] :=
        .seq (.seq .none (.locked (.plain 0))) (.plain 0)
      exact absurd (List.mem_cons_of_mem _ (List.mem_singleton_self _)) (masked _ printed).no_release
    | false =>
      cases isScheduler with
      | true =>
        have yielded : Traces (timerHandler false true) [.acquire .sched, .release .sched] :=
          .seq (.locked (.plain 0)) (.plain 0)
        exact absurd (List.mem_cons_of_mem _ (List.mem_singleton_self _)) (masked _ yielded).no_release
      | false => exact ⟨rfl, rfl⟩
  · rintro ⟨rfl, rfl⟩ trace traces
    cases traces with
    | seq first second =>
      intro count
      cases first with
      | plain one =>
        cases second with
        | plain two =>
          rw [List.replicate_append_replicate]
          exact StaysClear.plain (.plain _) count

/-- One tick with the scheduler running: after `yield_task` the flag is set. -/
theorem tick_unmasked : ¬ (∀ hasFault isScheduler before, TimerMasked hasFault isScheduler before) := by
  intro all
  have yielded : Traces (timerHandler false true) [.acquire .sched, .work, .release .sched] :=
    .seq (.locked (.plain 1)) (.plain 0)
  have clear := all false true true _ yielded 3
  cases clear

end Navy
