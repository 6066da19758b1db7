import Mathlib.Data.List.Perm.Subperm
import Mathlib.Data.List.FinRange
import Mathlib.Logic.Function.Basic

/-! Who holds what of a stock of resources. The claims of all holders together
stay within the stock, each unit claimed once, so what one holder gives back
nobody else has. -/

namespace Holdings

variable {E : Type u}

/-- The claims of the first `count` holders, one after the other. -/
def claims (claim : Nat → List E) (count : Nat) : List E := (List.range count).flatMap claim

variable {claim other : Nat → List E} {count index : Nat} {stock rest part : List E}

theorem claims_succ (claim : Nat → List E) (count : Nat) :
    claims claim (count + 1) = claims claim count ++ claim count := by
  simp [claims, List.range_succ]

theorem claims_congr (same : ∀ index, index < count → claim index = other index) :
    claims claim count = claims other count := by
  induction count with
  | zero => rfl
  | succ count ih =>
    rw [claims_succ, claims_succ, ih fun index inside => same index (by omega), same count (Nat.lt_succ_self count)]

/-- One holder's claim set apart from the others'. -/
theorem claims_split (claim : Nat → List E) (inside : index < count) :
    (claims claim count).Perm (claim index ++ claims (Function.update claim index []) count) := by
  induction count with
  | zero => omega
  | succ count ih =>
    rw [claims_succ, claims_succ]
    by_cases last : index = count
    · subst last
      have others : claims (Function.update claim index []) index = claims claim index :=
        claims_congr fun place below => Function.update_of_ne (Nat.ne_of_lt below) _ _
      rw [Function.update_self, List.append_nil, others]
      exact List.perm_append_comm
    · rw [Function.update_of_ne (Ne.symm last), ← List.append_assoc]
      exact (ih (by omega)).append_right _

section Return

variable [BEq E] [LawfulBEq E]

/-- What is given back was in the stock, and the rest is still there. -/
theorem give_back {unit : E} (held : List.Subperm (unit :: rest) stock) : List.Subperm rest (stock.erase unit) := by
  have left := held.erase unit
  rwa [List.erase_cons_head] at left

end Return

/-- Two claimed units stand side by side in the stock. -/
theorem related {relation : E → E → Prop} (symmetric : ∀ {first second}, relation first second → relation second first)
    (held : List.Subperm part stock) (pairwise : stock.Pairwise relation) : part.Pairwise relation := by
  obtain ⟨order, same, sublist⟩ := held
  exact (same.pairwise_iff symmetric).mp (pairwise.sublist sublist)

end Holdings
