import Navy.Library.Outcome

/-! Contracts of computations that may stop with an error: what holds when one comes
back, and which errors it may stop with. -/

namespace Outcome

variable {ε : Type u} {α β : Type v}

/-- A computation that comes back does so with something good, and stops with an
error of some kind only. -/
def Meets (result : Except ε α) (good : α → Prop) (faulty : ε → Prop) : Prop :=
  match result with
  | .ok value => good value
  | .error fault => faulty fault

section Meets

variable {good : α → Prop} {faulty : ε → Prop} {result : Except ε α}

theorem Meets.bind {next : α → Except ε β} {done : β → Prop} (first : Meets result good faulty)
    (rest : ∀ value, result = .ok value → good value → Meets (next value) done faulty) :
    Meets (result >>= next) done faulty := by
  cases result with
  | error fault => exact first
  | ok value => exact rest value rfl first

theorem Meets.mono {more : α → Prop} {wider : ε → Prop} (meets : Meets result good faulty)
    (weaker : ∀ value, good value → more value) (within : ∀ fault, faulty fault → wider fault) :
    Meets result more wider := by
  cases result with
  | error fault => exact within fault meets
  | ok value => exact weaker value meets

theorem Meets.ran {value : α} (meets : Meets result good faulty) (ran : result = .ok value) : good value := by
  subst ran
  exact meets

theorem Meets.returns (meets : Meets result good fun _ => False) : ∃ value, result = .ok value ∧ good value := by
  cases result with
  | error fault => exact meets.elim
  | ok value => exact ⟨value, rfl, meets⟩

end Meets

end Outcome
