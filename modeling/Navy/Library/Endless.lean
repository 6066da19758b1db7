import Mathlib.Order.Monotone.Basic
import Mathlib.Order.Basic
import Mathlib.Order.Nat
import Navy.Library.Rotation

/-! Turns without end: on a ring whose members all stay, every live member has its
turn again and again, and acts in it. What only falls comes to rest. -/

namespace Rotation

/-- How far it is from the cursor on to a member, a full round at the most. -/
def distance (count cursor member : Nat) : Nat := if cursor < member then member - cursor else member + count - cursor

theorem FirstAfter.nearer {ring : Ring} {next member : Nat} (first : FirstAfter ring next)
    (inside : ring.cursor < ring.count) (living : ring.alive member) (below : member < ring.count) :
    next = member ∨ distance ring.count next member < distance ring.count ring.cursor member := by
  obtain ⟨within, -, between | ⟨round, behind, before⟩⟩ := first.split inside
  · have outside : ¬ (ring.cursor < member ∧ member < next) := fun both => between.2 member both.1 both.2 living
    have ahead := between.1
    unfold distance
    split <;> split <;> omega
  · have early : member ≤ ring.cursor := Nat.le_of_not_lt fun late => behind member late below living
    have late : next ≤ member := Nat.le_of_not_lt fun less => before member less living
    unfold distance
    split <;> split <;> omega

/-- The cursor over time, from some time on: switches come again and again, and each
takes the first live member. -/
structure Endless (count : Nat) (alive : Nat → Prop) (cursor : Nat → Nat) (switches : Nat → Prop)
    (start : Nat) : Prop where
  inside : ∀ time, start ≤ time → cursor time < count
  again : ∀ time, ∃ later, time ≤ later ∧ switches later
  moves : ∀ time, start ≤ time → switches time → FirstAfter ⟨count, alive, cursor time⟩ (cursor (time + 1))
  stays : ∀ time, start ≤ time → ¬ switches time → cursor (time + 1) = cursor time

/-- In every turn the member that has it acts. -/
def Acting (switches acts : Nat → Prop) : Prop :=
  ∀ time, switches time → ∃ earlier, earlier < time ∧ acts earlier ∧ ∀ between, earlier ≤ between → between < time →
    ¬ switches between

namespace Endless

variable {count start member time later : Nat} {alive : Nat → Prop} {cursor : Nat → Nat} {switches acts : Nat → Prop}

theorem next (endless : Endless count alive cursor switches start) (time : Nat) :
    ∃ later, time ≤ later ∧ switches later ∧ ∀ between, time ≤ between → between < later → ¬ switches between := by
  classical
  have found := endless.again time
  obtain ⟨beyond, switch⟩ := Nat.find_spec found
  exact ⟨Nat.find found, beyond, switch, fun between after before switch => Nat.find_min found before ⟨after, switch⟩⟩

theorem still (endless : Endless count alive cursor switches start) (from' : start ≤ time) (beyond : time ≤ later)
    (none : ∀ between, time ≤ between → between < later → ¬ switches between) : cursor later = cursor time := by
  induction later, beyond using Nat.le_induction with
  | base => rfl
  | succ later beyond ih =>
    rw [endless.stays later (Nat.le_trans from' beyond) (none later beyond (Nat.lt_succ_self later))]
    exact ih fun between after before => none between after (Nat.lt_succ_of_lt before)

/-- The cursor comes to every live member. -/
theorem comes (endless : Endless count alive cursor switches start) (living : alive member)
    (below : member < count) (from' : start ≤ time) :
    ∃ later, time ≤ later ∧ switches later ∧ cursor (later + 1) = member := by
  induction left : distance count (cursor time) member using Nat.strong_induction_on generalizing time with
  | _ left ih =>
    obtain ⟨turn, beyond, switch, none⟩ := endless.next time
    have here := endless.still from' beyond none
    have late := Nat.le_trans from' beyond
    cases (endless.moves turn late switch).nearer (endless.inside turn late) living below with
    | inl reached => exact ⟨turn, beyond, switch, reached⟩
    | inr nearer =>
      rw [here, left] at nearer
      obtain ⟨later, after, comes⟩ := ih _ nearer (Nat.le_succ_of_le late) rfl
      exact ⟨later, by omega, comes⟩

/-- Every live member acts again and again. -/
theorem served (endless : Endless count alive cursor switches start) (acting : Acting switches acts)
    (living : alive member) (below : member < count) (from' : start ≤ time) :
    ∃ later, time ≤ later ∧ acts later ∧ cursor later = member := by
  obtain ⟨turn, beyond, switch, reached⟩ := endless.comes living below from'
  obtain ⟨last, after, ends, none⟩ := endless.next (turn + 1)
  obtain ⟨act, before, acts, quiet⟩ := acting last ends
  have inside : turn < act := Nat.lt_of_not_le fun early => quiet turn early (by omega) switch
  refine ⟨act, by omega, acts, ?_⟩
  rw [← reached]
  exact endless.still (by omega) inside fun between after' before' => none between after' (by omega)

end Endless

/-- What never rises comes to rest. -/
theorem rests {measure : Nat → Nat} (falls : ∀ time, measure (time + 1) ≤ measure time) :
    ∃ start, ∀ time, start ≤ time → measure time = measure start := by
  classical
  have some : ∃ least, ∃ time, measure time = least := ⟨_, 0, rfl⟩
  obtain ⟨start, least⟩ := Nat.find_spec some
  refine ⟨start, fun time beyond => Nat.le_antisymm (antitone_nat_of_succ_le falls beyond) ?_⟩
  rw [least]
  exact Nat.find_min' some ⟨time, rfl⟩

end Rotation
