import Navy.Proofs.StringFunctions
import Mathlib.Order.Bounds.Basic
import Mathlib.Data.Nat.Find

/-! What `strrchr` finds. It takes the place of the terminator for a search that
failed, and the place in front of the string for one that found something. -/

namespace Navy
open Outcome

/-- A place of a string, the terminator's included, that holds a character. -/
def Occurs (a : List (BitVec 8)) (c : BitVec 32) (i : Nat) : Prop := i ≤ a.length ∧ (charAt a i).signExtend 32 = c

instance (a : List (BitVec 8)) (c : BitVec 32) : DecidablePred (Occurs a c) :=
  fun i => inferInstanceAs (Decidable (i ≤ a.length ∧ (charAt a i).signExtend 32 = c))

/-- What `strrchr` promises of a string `a` and a character, whatever lies behind the
terminator. An object that ends there makes a read behind it a fault. -/
structure FindsLast (a : List (BitVec 8)) (c : BitVec 32) : Prop where
  reads : (strrchr (a ++ [0]) c).isOk
  behind : ∀ rest, strrchr (a ++ 0 :: rest) c = strrchr (a ++ [0]) c
  found : ∀ i, strrchr (a ++ [0]) c = .ok (some i) ↔ IsGreatest {i | Occurs a c i} i
  missing : strrchr (a ++ [0]) c = .ok none ↔ ∀ i, ¬ Occurs a c i

variable {a : List (BitVec 8)} {c : BitVec 32} {i pos : Nat}

/-- A character that occurs has a greatest place. -/
theorem greatest_occurs (occurs : Occurs a c i) : ∃ last, IsGreatest {i | Occurs a c i} last :=
  ⟨Nat.findGreatest (Occurs a c) a.length, Nat.findGreatest_spec occurs.1 occurs,
    fun _ other => Nat.le_findGreatest other.1 other⟩

theorem strrchrFrom_here (occurs : Occurs a c pos) : strrchrFrom (a ++ [0]) c pos = .ok pos := by
  obtain ⟨inside, same⟩ := occurs
  cases pos with
  | zero =>
    rw [strrchrFrom, byteAt_charAt inside, ok_bind, if_neg (not_not.mpr same)]
    rfl
  | succ pos =>
    rw [strrchrFrom, byteAt_charAt inside, ok_bind, if_neg (not_not.mpr same)]
    rfl

theorem strrchrFrom_skip (inside : pos + 1 ≤ a.length) (other : ¬ Occurs a c (pos + 1)) :
    strrchrFrom (a ++ [0]) c (pos + 1) = strrchrFrom (a ++ [0]) c pos := by
  rw [strrchrFrom, byteAt_charAt inside, ok_bind, if_pos fun same => other ⟨inside, same⟩]

/-- The loop stops at the first place from above that holds the character. -/
theorem strrchrFrom_found (last : IsGreatest {i | Occurs a c i} i) (above : i ≤ pos) (inside : pos ≤ a.length) :
    strrchrFrom (a ++ [0]) c pos = .ok i := by
  induction pos with
  | zero =>
    obtain rfl := Nat.le_zero.mp above
    exact strrchrFrom_here last.1
  | succ pos ih =>
    rcases Nat.lt_or_eq_of_le above with below | rfl
    · have other : ¬ Occurs a c (pos + 1) := fun occurs => Nat.not_le_of_lt below (last.2 occurs)
      rw [strrchrFrom_skip inside other]
      exact ih (Nat.le_of_lt_succ below) (Nat.le_of_succ_le inside)
    · exact strrchrFrom_here last.1

/-- Where no place holds it, the counter runs through zero. -/
theorem strrchrFrom_missing (missing : ∀ i, ¬ Occurs a c i) (inside : pos ≤ a.length) :
    strrchrFrom (a ++ [0]) c pos = .ok (2 ^ 64 - 1) := by
  induction pos with
  | zero =>
    rw [strrchrFrom, byteAt_charAt inside, ok_bind, if_pos fun same => missing 0 ⟨inside, same⟩]
    rfl
  | succ pos ih =>
    rw [strrchrFrom_skip inside (missing (pos + 1))]
    exact ih (Nat.le_of_succ_le inside)

theorem strrchr_ends (clean : 0 ∉ a) (ran : strrchrFrom (a ++ [0]) c a.length = .ok pos) :
    strrchr (a ++ [0]) c = .ok (if pos = a.length then none else some pos) := by
  rw [strrchr, strlen_text clean, ok_bind, ran, ok_bind]
  rfl

theorem strrchrFrom_congr {s s' : List (BitVec 8)} (same : ∀ i ≤ pos, byteAt s i = byteAt s' i) :
    strrchrFrom s c pos = strrchrFrom s' c pos := by
  induction pos with
  | zero => rw [strrchrFrom, strrchrFrom, same 0 (Nat.le_refl 0)]
  | succ pos ih =>
    rw [strrchrFrom, strrchrFrom, same (pos + 1) (Nat.le_refl _), ih fun i inside => same i (Nat.le_succ_of_le inside)]

/-- What lies behind the terminator is not looked at. -/
theorem strrchr_behind (clean : 0 ∉ a) (c : BitVec 32) (rest : List (BitVec 8)) :
    strrchr (a ++ 0 :: rest) c = strrchr (a ++ [0]) c := by
  have same : ∀ i ≤ a.length, byteAt (a ++ 0 :: rest) i = byteAt (a ++ [0]) i := by
    intro i inside
    have before : i < (a ++ [0]).length := by simpa using Nat.lt_succ_of_le inside
    unfold byteAt
    rw [List.append_cons, List.getElem?_append_left before]
  rw [strrchr, strrchr, strlen_text clean, strlen_text clean, ok_bind, ok_bind, strrchrFrom_congr same]

/-- The terminator is the last place there is. -/
theorem greatest_terminator (a : List (BitVec 8)) : IsGreatest {i | Occurs a 0 i} a.length := by
  refine ⟨⟨Nat.le_refl _, ?_⟩, fun i occurs => occurs.1⟩
  rw [charAt_length]
  rfl

/-- Any other character is in front of it. -/
theorem Occurs.before (occurs : Occurs a c i) (nonzero : c ≠ 0) : i < a.length := by
  apply Nat.lt_of_le_of_ne occurs.1
  rintro rfl
  apply nonzero
  rw [← occurs.2, charAt_length]
  rfl

theorem signExtend_zero {byte : BitVec 8} (zero : byte.signExtend 32 = 0) : byte = 0 := by
  have back := congrArg BitVec.toInt zero
  rw [BitVec.toInt_signExtend_of_le (by decide)] at back
  exact BitVec.eq_of_toInt_eq back

theorem Occurs.member (occurs : Occurs a c i) (nonzero : c ≠ 0) : ∃ byte ∈ a, byte.signExtend 32 = c := by
  have inside := occurs.before nonzero
  refine ⟨charAt a i, ?_, occurs.2⟩
  unfold charAt
  rw [List.getD_eq_getElem _ _ inside]
  exact List.getElem_mem inside

theorem occurs_of_member {byte : BitVec 8} (member : byte ∈ a) : ∃ i, Occurs a (byte.signExtend 32) i := by
  obtain ⟨i, inside, rfl⟩ := List.getElem_of_mem member
  refine ⟨i, Nat.le_of_lt inside, ?_⟩
  unfold charAt
  rw [List.getD_eq_getElem _ _ inside]

theorem FindsLast.of_member (clean : 0 ∉ a) {byte : BitVec 8} (member : byte ∈ a) :
    FindsLast a (byte.signExtend 32) := by
  have nonzero : byte.signExtend 32 ≠ 0 := fun zero => clean (signExtend_zero zero ▸ member)
  obtain ⟨i, occurs⟩ := occurs_of_member member
  obtain ⟨last, greatest⟩ := greatest_occurs occurs
  have inside : last < a.length := greatest.1.before nonzero
  have ran := strrchr_ends clean (strrchrFrom_found greatest (Nat.le_of_lt inside) (Nat.le_refl _))
  rw [if_neg (Nat.ne_of_lt inside)] at ran
  refine ⟨by rw [ran]; rfl, strrchr_behind clean _, fun place => ?_, ?_⟩
  · constructor
    · intro found
      obtain rfl := Option.some.inj (Except.ok.inj (ran.symm.trans found))
      exact greatest
    · intro other
      rw [ran, greatest.unique other]
  · constructor
    · intro missing
      cases ran.symm.trans missing
    · intro missing
      exact absurd occurs (missing i)

/-- `strrchr` finds the last place of a character just when one in front of the
terminator holds it. -/
theorem strrchr_last_iff (a : List (BitVec 8)) (c : BitVec 32) (clean : 0 ∉ a) (addressed : a.length + 1 < 2 ^ 64) :
    FindsLast a c ↔ ∃ byte ∈ a, byte.signExtend 32 = c := by
  constructor
  · intro finds
    by_cases zero : c = 0
    · -- the search for the terminator stops where it started
      subst zero
      have greatest := greatest_terminator a
      have ran := strrchr_ends clean (strrchrFrom_found greatest (Nat.le_refl _) (Nat.le_refl _))
      rw [if_pos rfl] at ran
      cases ran.symm.trans ((finds.found a.length).mpr greatest)
    · by_contra absent
      have missing (i : Nat) : ¬ Occurs a c i := fun occurs => absent (occurs.member zero)
      have ran := strrchr_ends clean (strrchrFrom_missing missing (Nat.le_refl _))
      rw [if_neg (by omega)] at ran
      cases ran.symm.trans (finds.missing.mpr missing)
  · rintro ⟨byte, member, rfl⟩
    exact FindsLast.of_member clean member

theorem strrchr_last_b : FindsLast [97, 98, 98] 98 ↔ ∃ byte ∈ ([97, 98, 98] : List (BitVec 8)),
    byte.signExtend 32 = 98 :=
  strrchr_last_iff [97, 98, 98] 98 (by decide) (by decide)

/-- In `"abc"` an `x` is found in front of the string, and the terminator nowhere. -/
theorem strrchr_slips : ¬ FindsLast [97, 98, 99] 120 ∧ ¬ FindsLast [97, 98, 99] 0 := by
  constructor
  · intro finds
    have greatest := (finds.found (2 ^ 64 - 1)).mp rfl
    exact absurd greatest.1.1 (by decide)
  · intro finds
    exact finds.missing.mp rfl 3 ⟨by decide, rfl⟩

end Navy
