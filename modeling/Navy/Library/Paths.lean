import Mathlib.Init

/-! Paths of a system whose steps are labelled by what can be seen of them. -/

namespace Paths

variable {State View Label : Type}

/-- Step after step, with the labels in order. -/
inductive Path (step : State → Label → State → Prop) : State → List Label → State → Prop where
  | nil {state : State} : Path step state [] state
  | cons {state between last : State} {label : Label} {labels : List Label} (first : step state label between)
      (rest : Path step between labels last) : Path step state (label :: labels) last

variable {step : State → Label → State → Prop} {state between last : State} {labels more : List Label}

theorem Path.append (path : Path step state labels between) (further : Path step between more last) :
    Path step state (labels ++ more) last := by
  induction path with
  | nil => exact further
  | cons first rest ih => exact .cons first (ih further)

/-- What every step keeps, a path keeps. -/
theorem Path.keeps {kept : State → Prop} (keeps : ∀ state label after, kept state → step state label after → kept after)
    (path : Path step state labels last) (holds : kept state) : kept last := by
  induction path with
  | nil => exact holds
  | cons first rest ih => exact ih (keeps _ _ _ holds first)

/-- What every step keeps whose label is of some kind, a path of such labels keeps. -/
theorem Path.keeps_labelled (kept : State → Prop) (kind : Label → Prop)
    (keeps : ∀ state label after, kept state → kind label → step state label after → kept after)
    (path : Path step state labels last) (kinds : ∀ label ∈ labels, kind label) (holds : kept state) : kept last := by
  induction path with
  | nil => exact holds
  | cons first rest ih =>
    exact ih (fun label among => kinds label (List.mem_cons_of_mem _ among))
      (keeps _ _ _ holds (kinds _ List.mem_cons_self) first)

end Paths
