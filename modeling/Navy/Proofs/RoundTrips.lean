import Navy.Proofs.Formatting

/-! Values printed and parsed again. Decimal printing turns the sign of a negative
value to the end, and hexadecimal printing drops the zeros in front of its lower
half. -/

namespace Navy
open Outcome Numerals

/-- The canonical signed decimal numeral. -/
def decimal (value : Int) : List (BitVec 8) :=
  if value < 0 then 45 :: numeral 10 value.natAbs else numeral 10 value.natAbs

/-- `itoa` writes the canonical numeral into any buffer that has room for all of them,
and `atoi` reads an `int` back from it. -/
structure DecimalTrip (value : BitVec 64) : Prop where
  canonical : ∀ stack str, 21 ≤ str.length → ∃ rest, itoa stack value str 10 = .ok (decimal value.toInt ++ 0 :: rest)
  back : -2 ^ 31 ≤ value.toInt → value.toInt < 2 ^ 31 → ∀ stack str, 21 ≤ str.length →
    ∃ written, itoa stack value str 10 = .ok written ∧ atoi written = .ok value.toInt

theorem toInt_natural {value : BitVec 64} (natural : 0 ≤ value.toInt) : value.toInt = value.toNat := by
  have cases' := value.toInt_eq_toNat_cond
  split at cases' <;> omega

/-- Decimal printing and parsing is a round trip just for values that are not negative. -/
theorem itoa_decimal_iff (value : BitVec 64) : DecimalTrip value ↔ 0 ≤ value.toInt := by
  constructor
  · intro trip
    by_contra negative
    have sign : value.toInt < 0 := by omega
    obtain ⟨written, rest, ran, clean⟩ := @itoaWhole_negative (List.replicate 21 0) _ sign value.le_toInt (by decide)
    obtain ⟨others, exact'⟩ := trip.canonical (fun _ => 0) (List.replicate 21 0) (by decide)
    rw [itoa_whole _ (.inr rfl), ran, decimal, if_pos sign] at exact'
    -- one text ends with a sign and the other with a digit
    have texts := congrArg textOf (Except.ok.inj exact')
    have clean' : 0 ∉ written ++ [45] := by simpa using clean
    have cleanNumeral : 0 ∉ 45 :: numeral 10 value.toInt.natAbs := by
      rw [List.mem_cons, not_or]
      exact ⟨by decide, numeral_clean (by decide) (by decide) _⟩
    rw [textOf_text clean', textOf_text cleanNumeral, numeral_eq (by decide), ← List.cons_append] at texts
    have last := (List.append_inj' texts rfl).2
    have small : value.toInt.natAbs % 10 < 10 := Nat.mod_lt _ (by decide)
    generalize value.toInt.natAbs % 10 = code at last small
    interval_cases code <;> exact absurd last (by decide)
  · intro natural
    have number := toInt_natural natural
    have word := value.isLt
    have short : (numeral 10 value.toNat).length ≤ 20 := (length_numeral_le_iff (by decide) (by decide)).mpr (by omega)
    have ran (stack : Nat → BitVec 8) (str : List (BitVec 8)) (room : 21 ≤ str.length) :=
      @itoa_numeral str stack value 10 (by decide) (by decide) natural (by omega)
    constructor
    · intro stack str room
      refine ⟨str.drop ((numeral 10 value.toNat).length + 1), ?_⟩
      rw [ran stack str room, decimal, if_neg (by omega), number]
      rfl
    · intro _ high stack str room
      refine ⟨_, ran stack str room, ?_⟩
      rw [number] at high ⊢
      exact atoi_numeral (by omega)

/-- `-5` comes out as `"+-"`. -/
theorem itoa_sign_last : ¬ ∀ value, DecimalTrip value := by
  intro trips
  obtain ⟨rest, written⟩ := (trips (-5)).canonical (fun _ => 0) (List.replicate 21 0) (by decide)
  have ran : itoa (fun _ => 0) (-5) (List.replicate 21 0) 10 = .ok (43 :: 45 :: 0 :: List.replicate 18 0) := by decide
  have canonical : decimal (-5 : BitVec 64).toInt = [45, 53] := by decide
  rw [ran, canonical] at written
  exact absurd (List.cons.inj (Except.ok.inj written)).1 (by decide)

/-- `itoa` writes the canonical numeral into any cleared buffer that has room for all of
them, `hex2int` reads the value back from it, and a placeholder `{a}` shows it with
sixteen digits. -/
structure HexTrip (value : BitVec 64) : Prop where
  canonical : ∀ stack size, 17 ≤ size → ∃ rest, itoa stack value (List.replicate size 0) 16 =
    .ok (numeral 16 value.toNat ++ 0 :: rest)
  back : ∀ stack size, 17 ≤ size → ∃ written, itoa stack value (List.replicate size 0) 16 = .ok written ∧
    hex2int written = .ok value
  padded : ∀ stack rest, (printFormat stack ([123, 97, 125] ++ 0 :: rest) [.decimal value]).outcome = .ok () ∧
    printed (printFormat stack ([123, 97, 125] ++ 0 :: rest) [.decimal value]) = (numeral 16 value.toNat).leftpad 16 48

/-- The round trip follows from the numeral. -/
theorem HexTrip.of_canonical {value : BitVec 64}
    (canonical : ∀ stack size, 17 ≤ size → ∃ rest, itoa stack value (List.replicate size 0) 16 =
      .ok (numeral 16 value.toNat ++ 0 :: rest)) :
    HexTrip value := by
  refine ⟨canonical, fun stack size room => ?_, fun stack rest => ?_⟩
  · obtain ⟨rest, ran⟩ := canonical stack size room
    refine ⟨_, ran, ?_⟩
    rw [hex2int_numeral, BitVec.ofNat_toNat, BitVec.setWidth_eq]
  · have proper : ∀ piece ∈ [Piece.hole [97]], piece.Proper := by simp [Piece.Proper]
    have all := @printFormat_pieces stack [.decimal value] [Piece.hole [97]] [123, 97, 125] rest (by decide) proper rfl
    obtain ⟨behind, ran⟩ := canonical stack 256 (by decide)
    have shown : itoaText stack value 16 = numeral 16 value.toNat := by
      rw [itoaText, ran]
      exact textOf_text (numeral_clean (by decide) (by decide) _)
    have text : render stack [.decimal value] 0 [Piece.hole [97]] = (itoaText stack value 16).leftpad 16 48 := by
      rw [render, render, List.append_nil]
      rfl
    rw [← shown, ← text]
    exact ⟨all.outcome, all.text⟩

theorem replicate_split {size : Nat} (count : Nat) (room : count < size) :
    List.replicate size (0 : BitVec 8) = List.replicate count 0 ++ 0 :: List.replicate (size - count - 1) 0 := by
  rw [← List.replicate_succ, List.replicate_append_replicate]
  congr 1
  omega

/-- The numeral of a value with the top bit set has sixteen digits, the last eight of them
those of its lower half. -/
theorem numeral_halves {value : Nat} (high : 2 ^ 63 ≤ value) :
    numeral 16 value = numeral 16 (value / 2 ^ 32) ++ (numeral 16 (value % 2 ^ 32)).leftpad 8 (digit 0) := by
  have whole : value = value / 2 ^ 32 * 16 ^ 8 + value % 2 ^ 32 := by omega
  have split := numeral_split (by decide : 1 < 16) (by omega : 0 < value / 2 ^ 32) (by decide : 0 < 8)
    (by omega : value % 2 ^ 32 < 16 ^ 8)
  rwa [← whole] at split

theorem toNat_negative {value : BitVec 64} (negative : value.toInt < 0) : 2 ^ 63 ≤ value.toNat := by
  have cases' := value.toInt_eq_toNat_cond
  split at cases' <;> omega

/-- Hexadecimal printing is a round trip just for values whose top bit is clear or whose
lower half needs all of its eight digits. -/
theorem itoa_hex_iff (value : BitVec 64) : HexTrip value ↔ 0 ≤ value.toInt ∨ 2 ^ 28 ≤ value.toNat % 2 ^ 32 := by
  have word := value.isLt
  constructor
  · intro trip
    by_contra neither
    obtain ⟨negative, small⟩ := not_or.mp neither
    have high := toNat_negative (by omega : value.toInt < 0)
    have left : (numeral 16 (value.toNat / 2 ^ 32)).length ≤ 8 :=
      (length_numeral_le_iff (by decide) (by decide)).mpr (by omega)
    have right : (numeral 16 (value.toNat % 2 ^ 32)).length ≤ 7 :=
      (length_numeral_le_iff (by decide) (by decide)).mpr (by omega)
    obtain ⟨rest, exact'⟩ := trip.canonical (fun _ => 0) 17 (by decide)
    rw [replicate_split ((numeral 16 (value.toNat / 2 ^ 32)).length + (numeral 16 (value.toNat % 2 ^ 32)).length)
      (by omega), itoa_halves _ (by omega) (by rw [List.length_replicate])] at exact'
    -- the two halves are at most fifteen digits
    have texts := congrArg textOf (Except.ok.inj exact')
    have clean : 0 ∉ numeral 16 (value.toNat / 2 ^ 32) ++ numeral 16 (value.toNat % 2 ^ 32) := by
      rw [List.mem_append, not_or]
      exact ⟨numeral_clean (by decide) (by decide) _, numeral_clean (by decide) (by decide) _⟩
    rw [textOf_text clean, textOf_text (numeral_clean (by decide) (by decide) _)] at texts
    have lengths := congrArg List.length texts
    rw [List.length_append] at lengths
    have short := (length_numeral_le_iff (by decide : 1 < 16) (by decide : 0 < 15)).mp
      (by omega : (numeral 16 value.toNat).length ≤ 15)
    omega
  · intro fine
    apply HexTrip.of_canonical
    intro stack size room
    by_cases natural : 0 ≤ value.toInt
    · have short : (numeral 16 value.toNat).length ≤ 16 :=
        (length_numeral_le_iff (by decide) (by decide)).mpr (by omega)
      exact ⟨_, itoa_numeral stack (by decide) (by decide) natural (by rw [List.length_replicate]; omega)⟩
    · have high := toNat_negative (by omega : value.toInt < 0)
      have left : (numeral 16 (value.toNat / 2 ^ 32)).length ≤ 8 :=
        (length_numeral_le_iff (by decide) (by decide)).mpr (by omega)
      have right : (numeral 16 (value.toNat % 2 ^ 32)).length ≤ 8 :=
        (length_numeral_le_iff (by decide) (by decide)).mpr (by omega)
      have full : ¬ (numeral 16 (value.toNat % 2 ^ 32)).length ≤ 7 := by
        intro short
        have below := (length_numeral_le_iff (by decide : 1 < 16) (by decide : 0 < 7)).mp short
        omega
      have halves : numeral 16 value.toNat = numeral 16 (value.toNat / 2 ^ 32) ++ numeral 16
        (value.toNat % 2 ^ 32) := by
        rw [numeral_halves high, List.leftpad, Nat.sub_eq_zero_of_le (by omega)]
        rfl
      rw [halves, replicate_split ((numeral 16 (value.toNat / 2 ^ 32)).length +
        (numeral 16 (value.toNat % 2 ^ 32)).length) (by omega)]
      exact ⟨_, itoa_halves stack (by omega) (by rw [List.length_replicate])⟩

/-- The first address of the direct map comes out with nine digits. -/
theorem itoa_drops_zeros : ¬ ∀ value, HexTrip value := by
  intro trips
  obtain ⟨rest, written⟩ := (trips 0xffff800000000000).canonical (fun _ => 0) 17 (by decide)
  have ran : itoa (fun _ => 0) 0xffff800000000000 (List.replicate 17 0) 16 =
      .ok ([102, 102, 102, 102, 56, 48, 48, 48, 48] ++ List.replicate 8 0) := by decide
  have canonical : numeral 16 (0xffff800000000000 : BitVec 64).toNat =
      [102, 102, 102, 102, 56, 48, 48, 48, 48, 48, 48, 48, 48, 48, 48, 48] := by decide
  rw [ran, canonical] at written
  have tenth : some (0 : BitVec 8) = some 48 := congrArg (fun text => text[9]?) (Except.ok.inj written)
  exact absurd tenth (by decide)

end Navy
