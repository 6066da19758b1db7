import Mathlib.Tactic.IntervalCases
import Mathlib.Tactic.Ring
import Mathlib.Data.Nat.Digits.Defs

/-! Numerals as bytes, most significant digit first, without leading zeros. -/

namespace Numerals

def digit (value : Nat) : BitVec 8 := BitVec.ofNat 8 value.digitChar.toNat

def numeral (base number : Nat) : List (BitVec 8) := (Nat.toDigits base number).map fun c => BitVec.ofNat 8 c.toNat

theorem digit_toNat {value : Nat} (small : value < 16) :
    (digit value).toNat = if value < 10 then 48 + value else 87 + value := by
  unfold digit
  interval_cases value <;> rfl

theorem digit_ne_zero {value : Nat} (small : value < 16) : digit value ≠ 0 := by
  intro zero
  have code := digit_toNat small
  rw [zero, BitVec.ofNat_eq_ofNat, BitVec.toNat_ofNat, Nat.zero_mod] at code
  split at code <;> omega

variable {base number : Nat}

theorem numeral_eq (proper : 1 < base) (number : Nat) :
    numeral base number = (if number < base then [] else numeral base (number / base)) ++ [digit (number % base)] := by
  unfold numeral
  rw [Nat.toDigits_eq_if proper]
  split
  next small => rw [Nat.mod_eq_of_lt small]; rfl
  next => rw [List.map_append]; rfl

theorem numeral_single (proper : 1 < base) (small : number < base) : numeral base number = [digit number] := by
  rw [numeral_eq proper, if_pos small, Nat.mod_eq_of_lt small]
  rfl

theorem numeral_ne_nil : numeral base number ≠ [] := by
  unfold numeral
  rw [Ne, List.map_eq_nil_iff]
  exact Nat.toDigits_ne_nil

theorem length_numeral_le_iff (proper : 1 < base) {count : Nat} (some' : 0 < count) :
    (numeral base number).length ≤ count ↔ number < base ^ count := by
  unfold numeral
  rw [List.length_map]
  exact Nat.length_toDigits_le_iff proper some'

theorem numeral_clean (proper : 1 < base) (small : base ≤ 16) (number : Nat) : 0 ∉ numeral base number := by
  induction number using Nat.strong_induction_on with
  | h number ih =>
    have last : 0 ≠ digit (number % base) := (digit_ne_zero (Nat.lt_of_lt_of_le (Nat.mod_lt _ (by omega)) small)).symm
    rw [numeral_eq proper]
    split
    next => simpa using last
    next large =>
      have shorter : number / base < number := Nat.div_lt_self (by omega) proper
      rw [List.mem_append, not_or]
      exact ⟨ih _ shorter, by simpa using last⟩

/-- A numeral spells the digits of its number. -/
theorem numeral_spells (proper : 1 < base) (number : Nat) :
    ∃ digits : List Nat, numeral base number = digits.map digit ∧ (∀ value ∈ digits, value < base) ∧
      Nat.ofDigits base digits.reverse = number := by
  induction number using Nat.strong_induction_on with
  | h number ih =>
    rw [numeral_eq proper]
    split
    next small =>
      rw [Nat.mod_eq_of_lt small]
      exact ⟨[number], rfl, by simpa using small, by simp⟩
    next large =>
      obtain ⟨digits, spelled, below, value⟩ := ih (number / base) (Nat.div_lt_self (by omega) proper)
      refine ⟨digits ++ [number % base], by rw [spelled, List.map_append]; rfl, ?_, ?_⟩
      · intro value member
        rcases List.mem_append.mp member with early | last
        · exact below value early
        · rw [List.mem_singleton.mp last]
          exact Nat.mod_lt _ (by omega)
      · rw [List.reverse_append, List.reverse_singleton, List.singleton_append, Nat.ofDigits_cons, value]
        exact Nat.mod_add_div number base

/-- The first digit counts for the places behind it. -/
theorem ofDigits_first (base value : Nat) (digits : List Nat) :
    Nat.ofDigits base (value :: digits).reverse = value * base ^ digits.length + Nat.ofDigits base digits.reverse := by
  rw [List.reverse_cons, Nat.ofDigits_append, List.length_reverse, Nat.ofDigits_singleton]
  ring

/-- A number written in two parts has the second padded with zeros. -/
theorem numeral_split (proper : 1 < base) {high low count : Nat} (some' : 0 < high) (more : 0 < count)
    (below : low < base ^ count) :
    numeral base (high * base ^ count + low) = numeral base high ++ (numeral base low).leftpad count (digit 0) := by
  induction count generalizing low with
  | zero => omega
  | succ count ih =>
    have whole : high * base ^ (count + 1) + low = base * (high * base ^ count) + low := by
      rw [Nat.pow_succ]
      ring
    have large : ¬ base * (high * base ^ count) + low < base := by
      have : 1 ≤ high * base ^ count := Nat.mul_pos some' (Nat.pow_pos (by omega))
      have := Nat.mul_le_mul_left base this
      omega
    have below' : low / base < base ^ count := by
      rw [Nat.pow_succ, Nat.mul_comm] at below
      exact Nat.div_lt_of_lt_mul below
    rw [whole, numeral_eq proper, if_neg large, Nat.mul_add_div (by omega), Nat.mul_add_mod]
    cases count with
    | zero =>
      have single : low < base := by simpa using below
      rw [Nat.div_eq_of_lt single, Nat.mod_eq_of_lt single, numeral_single proper single]
      simp [List.leftpad]
    | succ count =>
      rw [ih (Nat.succ_pos _) below', List.append_assoc]
      congr 1
      rw [List.leftpad, List.leftpad, List.append_assoc]
      by_cases single : low < base
      · rw [Nat.div_eq_of_lt single, Nat.mod_eq_of_lt single, numeral_single proper single,
          numeral_single proper (by omega)]
        simp [List.replicate_succ']
      · rw [numeral_eq proper low, if_neg single]
        simp

end Numerals
