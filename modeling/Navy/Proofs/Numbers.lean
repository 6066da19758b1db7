import Navy.Numbers
import Navy.Proofs.Tokens
import Navy.Library.Numerals

/-! Numbers written and read back. A buffer is what was written so far and the room
behind it. -/

namespace Navy
open Outcome Numerals

variable {front text rest room : List (BitVec 8)}

theorem setByte_front (front : List (BitVec 8)) (old new : BitVec 8) (rest : List (BitVec 8)) :
    setByte (front ++ old :: rest) front.length new = .ok (front ++ new :: rest) := by
  unfold setByte
  rw [if_pos (by simp), List.set_append_right _ _ (Nat.le_refl _), Nat.sub_self]
  rfl

theorem strrevFrom_done (s : List (BitVec 8)) {fuel start last : Nat} (met : last ≤ start) :
    strrevFrom (fuel + 1) s start last = .ok s := by
  rw [strrevFrom, if_neg (Nat.not_lt.mpr met)]
  rfl

/-- A turn exchanges the two ends of what is left. -/
theorem strrevFrom_turn (front middle rest : List (BitVec 8)) (first last : BitVec 8) (fuel : Nat) :
    strrevFrom (fuel + 1) (front ++ first :: (middle ++ last :: rest)) front.length (front ++ first :: middle).length =
      strrevFrom fuel (front ++ last :: (middle ++ first :: rest)) (front.length + 1)
        ((front ++ first :: middle).length - 1) := by
  have far (byte : BitVec 8) (more : List (BitVec 8)) :
      front ++ byte :: (middle ++ more) = front ++ byte :: middle ++ more := by simp
  have long (byte : BitVec 8) : (front ++ first :: middle).length = (front ++ byte :: middle).length := by simp
  rw [strrevFrom, if_pos (by simp), byteAt_front, ok_bind, far, byteAt_front, ok_bind, ← far,
    setByte_front, ok_bind, far, long last, setByte_front, ok_bind, far]

theorem strrevFrom_reverses (fuel : Nat) (front text rest : List (BitVec 8)) (enough : text.length < 2 * fuel) :
    strrevFrom fuel (front ++ text ++ rest) front.length (front.length + text.length - 1) = .ok
      (front ++ text.reverse ++ rest) := by
  induction fuel generalizing front text rest with
  | zero => omega
  | succ fuel ih =>
    cases text with
    | nil =>
      rw [strrevFrom_done _ (by simp)]
      rfl
    | cons first others =>
      rcases List.eq_nil_or_concat others with rfl | ⟨middle, last, rfl⟩
      · rw [strrevFrom_done _ (by simp)]
        rfl
      · rw [List.concat_eq_append] at enough ⊢
        have shape : front ++ first :: (middle ++ [last]) ++ rest = front ++ first :: (middle ++ last :: rest) := by
          simp
        have place : front.length + (first :: (middle ++ [last])).length - 1 =
          (front ++ first :: middle).length := by simp
        have next := ih (front ++ [last]) middle (first :: rest) (by simp at enough; omega)
        have shape' : front ++ [last] ++ middle ++ first :: rest = front ++ last :: (middle ++ first :: rest) := by simp
        have places : (front ++ [last]).length = front.length + 1 ∧
            (front ++ [last]).length + middle.length - 1 = (front ++ first :: middle).length - 1 := by
          simp
        rw [shape, place, strrevFrom_turn, ← places.1, ← places.2, ← shape', next]
        simp

theorem strrev_text (some' : text ≠ []) (clean : 0 ∉ text) (word : text.length < 2 ^ 64) :
    strrev (text ++ 0 :: rest) = .ok (text.reverse ++ 0 :: rest) := by
  have long := List.length_pos_iff.mpr some'
  have last : wrapSub text.length 1 = text.length - 1 := by
    simp only [wrapSub, wrap]
    omega
  have reversed := strrevFrom_reverses ((text ++ 0 :: rest).length + 1) [] text (0 :: rest) (by simp; omega)
  rw [strrev, strlen_text clean, ok_bind, last]
  simpa using reversed

private theorem tdiv_nat (value base : Nat) : (value : Int).tdiv base = ((value / base : Nat) : Int) := rfl

theorem itoaDigit_nat {base : Nat} (some' : 0 < base) (small : base ≤ 16) (value : Nat) :
    itoaDigit base value = digit (value % base) := by
  have below : value % base < 16 := Nat.lt_of_lt_of_le (Nat.mod_lt _ some') small
  have reduced : (value : Int).tmod base = ((value % base : Nat) : Int) := rfl
  unfold itoaDigit
  rw [reduced]
  generalize value % base = remainder at below
  interval_cases remainder <;> rfl

/-- The digits are written the wrong way round. -/
theorem itoaLoop_numeral {base : Nat} (proper : 1 < base) (small : base ≤ 16) (value : Nat) {fuel : Nat}
    (front room : List (BitVec 8)) (enough : (numeral base value).length ≤ fuel)
    (fits : (numeral base value).length ≤ room.length) :
    itoaLoop base fuel (front ++ room) front.length value =
      .ok (front ++ (numeral base value).reverse ++ room.drop (numeral base value).length,
        front.length + (numeral base value).length) := by
  induction value using Nat.strong_induction_on generalizing fuel front room with
  | h value ih =>
    have long := List.length_pos_iff.mpr (@numeral_ne_nil base value)
    obtain ⟨fuel, rfl⟩ : ∃ turns, fuel = turns + 1 := ⟨fuel - 1, by omega⟩
    cases room with
    | nil => exact absurd (Nat.le_trans long fits) (Nat.not_succ_le_zero 0)
    | cons first room =>
      rw [itoaLoop, setByte_front, ok_bind, itoaDigit_nat (by omega) small, tdiv_nat]
      rw [numeral_eq proper] at enough fits ⊢
      by_cases single : value < base
      · rw [if_pos single, Nat.div_eq_of_lt single, if_neg (by simp)]
        simp
        rfl
      · rw [if_neg single] at enough fits ⊢
        have positive : 0 < value / base := Nat.div_pos (by omega) (by omega)
        have shape (byte : BitVec 8) : front ++ byte :: room = front ++ [byte] ++ room := by simp
        have place (byte : BitVec 8) : front.length + 1 = (front ++ [byte]).length := by simp
        rw [if_pos (by omega), shape, place (digit (value % base)),
          ih (value / base) (Nat.div_lt_self (by omega) proper) _ _ (by simpa using enough) (by simpa using fits)]
        simp
        omega

theorem itoaDigit_negative {value : Int} (negative : value < 0) : itoaDigit 10 value ≠ 0 := by
  have low : -10 < value.tmod 10 := Int.lt_tmod_of_pos value (by decide)
  have high : value.tmod 10 ≤ 0 := by
    have opposite := Int.tmod_nonneg 10 (by omega : 0 ≤ -value)
    rw [Int.neg_tmod] at opposite
    omega
  unfold itoaDigit
  simp only [Nat.cast_ofNat]
  generalize value.tmod 10 = remainder at low high
  interval_cases remainder <;> decide

/-- Characters of some kind come out for a negative value too. -/
theorem itoaLoop_negative {value : Int} (negative : value < 0) {count fuel : Nat} (bound : value.natAbs < 10 ^ count)
    (front room : List (BitVec 8)) (enough : count ≤ fuel) (fits : count ≤ room.length) :
    ∃ written, 0 ∉ written ∧ written.length ≤ count ∧
      itoaLoop 10 fuel (front ++ room) front.length value =
        .ok (front ++ written ++ room.drop written.length, front.length + written.length) := by
  induction count generalizing value fuel front room with
  | zero => simp at bound; omega
  | succ count ih =>
    obtain ⟨fuel, rfl⟩ : ∃ turns, fuel = turns + 1 := ⟨fuel - 1, by omega⟩
    cases room with
    | nil => simp at fits
    | cons first room =>
      rw [itoaLoop, setByte_front, ok_bind]
      by_cases more : value.tdiv (10 : Nat) = 0
      · refine ⟨[itoaDigit 10 value], by simpa using (itoaDigit_negative negative).symm, by simp, ?_⟩
        rw [if_neg (not_not.mpr more)]
        simp
        rfl
      · have smaller : (value.tdiv (10 : Nat)).natAbs < 10 ^ count := by
          rw [Int.natAbs_tdiv]
          rw [Nat.pow_succ, Nat.mul_comm] at bound
          exact Nat.div_lt_of_lt_mul bound
        have negative' : value.tdiv (10 : Nat) < 0 := by
          have opposite := Int.tdiv_nonneg (by omega : 0 ≤ -value) (by decide : (0 : Int) ≤ (10 : Nat))
          rw [Int.neg_tdiv] at opposite
          omega
        obtain ⟨written, clean, short, ran⟩ :=
          ih negative' smaller (front ++ [itoaDigit 10 value]) room (Nat.le_of_succ_le_succ enough)
            (Nat.le_of_succ_le_succ fits)
        refine ⟨itoaDigit 10 value :: written, ?_, by simpa using short, ?_⟩
        · rw [List.mem_cons, not_or]
          exact ⟨(itoaDigit_negative negative).symm, clean⟩
        · have shape : front ++ itoaDigit 10 value :: room = front ++ [itoaDigit 10 value] ++ room := by simp
          have place : front.length + 1 = (front ++ [itoaDigit 10 value]).length := by simp
          rw [if_pos more, shape, place, ran]
          simp
          omega

private theorem length_word {base value : Nat} (proper : 1 < base) (word : value < 2 ^ 64) :
    (numeral base value).length ≤ 64 :=
  (length_numeral_le_iff proper (by decide)).mpr (Nat.lt_of_lt_of_le word (Nat.pow_le_pow_left proper 64))

private theorem drop_room {count : Nat} (fits : count < room.length) :
    ∃ byte, room.drop count = byte :: room.drop (count + 1) :=
  ⟨room[count], List.drop_eq_getElem_cons fits⟩

theorem itoaWhole_numeral {base value : Nat} (proper : 1 < base) (small : base ≤ 16) (word : value < 2 ^ 64)
    (fits : (numeral base value).length < room.length) :
    itoaWhole value room base = .ok (numeral base value ++ 0 :: room.drop ((numeral base value).length + 1)) := by
  have looped := @itoaLoop_numeral base proper small value (room.length + 1) [] room (by omega) (Nat.le_of_lt fits)
  have short := length_word proper word
  have clean : 0 ∉ (numeral base value).reverse := by
    rw [List.mem_reverse]
    exact numeral_clean proper small value
  obtain ⟨byte, behind⟩ := drop_room fits
  have terminated := setByte_front (numeral base value).reverse byte 0 (room.drop ((numeral base value).length + 1))
  have turned : strrev ((numeral base value).reverse ++ 0 :: room.drop ((numeral base value).length + 1)) =
      .ok ((numeral base value).reverse.reverse ++ 0 :: room.drop ((numeral base value).length + 1)) :=
    strrev_text (List.reverse_ne_nil_iff.mpr numeral_ne_nil) clean (by rw [List.length_reverse]; omega)
  rw [List.nil_append, List.nil_append, List.length_nil, Nat.zero_add, behind] at looped
  rw [List.length_reverse] at terminated
  rw [itoaWhole, check_true _ (by omega), ok_bind, if_neg (by omega), if_neg (by omega), ok_bind, looped, ok_bind,
    terminated, ok_bind, turned, List.reverse_reverse]

/-- A negative value is written with its sign at the end. -/
theorem itoaWhole_negative {value : Int} (negative : value < 0) (word : -2 ^ 63 ≤ value) (fits : 21 ≤ room.length) :
    ∃ written rest, itoaWhole value room 10 = .ok (written ++ [45] ++ 0 :: rest) ∧ 0 ∉ written := by
  obtain ⟨first, others, rfl⟩ := List.exists_cons_of_length_pos (by omega : 0 < room.length)
  have others_long : 20 ≤ others.length := by simpa using fits
  have bound : value.natAbs < 10 ^ 19 := by
    have : (2 : Int) ^ 63 = 9223372036854775808 := rfl
    omega
  obtain ⟨written, clean, short, looped⟩ :=
    @itoaLoop_negative value negative 19 ((first :: others).length + 1) bound [45] others
      (by rw [List.length_cons]; omega) (by omega)
  obtain ⟨byte, behind⟩ := drop_room (show written.length < others.length by omega)
  have terminated := setByte_front ([45] ++ written) byte 0 (others.drop (written.length + 1))
  have signed : 0 ∉ [45] ++ written := by simpa using clean
  have turned := @strrev_text _ (others.drop (written.length + 1)) (by simp) signed (by simp; omega)
  refine ⟨written.reverse, others.drop (written.length + 1), ?_, by simpa using clean⟩
  rw [behind] at looped
  have started : setByte (first :: others) 0 45 = .ok ([45] ++ others) := setByte_front [] first 45 others
  have place : ([45] ++ written).length = [(45 : BitVec 8)].length + written.length := List.length_append
  have length : ([45] ++ others).length = (first :: others).length := rfl
  rw [place] at terminated
  -- the loop goes on behind the sign
  have behindSign : itoaLoop 10 ((first :: others).length + 1) ([45] ++ others) 1 value =
      .ok ([45] ++ written ++ byte :: others.drop (written.length + 1),
        [(45 : BitVec 8)].length + written.length) := looped
  rw [itoaWhole, check_true _ (by decide), ok_bind, if_pos negative, started, ok_bind, if_pos negative, length,
    behindSign, ok_bind, terminated, ok_bind, turned, List.reverse_append]
  rfl

theorem itoa_whole (stack : Nat → BitVec 8) {value : BitVec 64} {base : Nat} (plain : 0 ≤ value.toInt ∨ base = 10) :
    itoa stack value room base = itoaWhole value.toInt room base :=
  if_neg (by omega)

theorem itoa_numeral (stack : Nat → BitVec 8) {value : BitVec 64} {base : Nat} (proper : 1 < base) (small : base ≤ 16)
    (natural : 0 ≤ value.toInt) (fits : (numeral base value.toNat).length < room.length) :
    itoa stack value room base = .ok (numeral base value.toNat ++ 0 :: room.drop
      ((numeral base value.toNat).length + 1)) := by
  have number : value.toInt = value.toNat :=
    BitVec.toInt_eq_toNat_of_lt (by have := value.toInt_eq_toNat_cond; split at this <;> omega)
  rw [itoa_whole stack (.inl natural), number]
  exact itoaWhole_numeral proper small value.isLt fits

section Parsing

/-- What the characters from a place on add up to. -/
def terms : List (BitVec 8) → BitVec 64
  | [] => 0
  | byte :: rest => atoiTerm byte rest.length + terms rest

theorem pow_eq (base power : Nat) : pow (BitVec.ofNat 64 base) power = BitVec.ofNat 64 (base ^ power) := by
  induction power with
  | zero => rfl
  | succ power ih =>
    have step : pow (BitVec.ofNat 64 base) (power + 1) = pow (BitVec.ofNat 64 base) power * BitVec.ofNat 64 base := by
      rw [pow, pow, List.range_succ, List.foldl_append]
      rfl
    rw [step, ih, ← BitVec.ofNat_mul, Nat.pow_succ]

theorem atoiTerm_digit {value power : Nat} (small : value < 10) (short : power < 2 ^ 16)
    (fits : value * 10 ^ power < 2 ^ 32) :
    atoiTerm (digit value) power = BitVec.ofNat 64 (value * 10 ^ power) := by
  have char : BitVec.ofInt 32 ((digit value).toInt - 48) = BitVec.ofNat 32 value := by
    interval_cases value <;> rfl
  have base : pow 10 (power % 2 ^ 16) = BitVec.ofNat 64 (10 ^ power) := by
    rw [Nat.mod_eq_of_lt short]
    exact pow_eq 10 power
  unfold atoiTerm
  rw [char, base]
  have narrow : 10 ^ power % 2 ^ 64 % 2 ^ 32 = 10 ^ power % 2 ^ 32 := Nat.mod_mod_of_dvd _ (by decide)
  apply BitVec.eq_of_toNat_eq
  rw [BitVec.toNat_setWidth, BitVec.toNat_mul, BitVec.toNat_setWidth, BitVec.toNat_ofNat, BitVec.toNat_ofNat,
    BitVec.toNat_ofNat, narrow, ← Nat.mul_mod, Nat.mod_eq_of_lt fits]

theorem terms_digits {digits : List Nat} (below : ∀ value ∈ digits, value < 10) (short : digits.length ≤ 2 ^ 16)
    (fits : Nat.ofDigits 10 digits.reverse < 2 ^ 32) :
    terms (digits.map digit) = BitVec.ofNat 64 (Nat.ofDigits 10 digits.reverse) := by
  induction digits with
  | nil => rfl
  | cons value digits ih =>
    rw [ofDigits_first] at fits ⊢
    have short' : digits.length < 2 ^ 16 := short
    rw [List.map_cons, terms, List.length_map, atoiTerm_digit (below value List.mem_cons_self) short' (by omega),
      ih (fun other member => below other (List.mem_cons_of_mem _ member)) (by omega) (by omega), BitVec.ofNat_add]

theorem atoiLoop_terms (clean : 0 ∉ front ++ text) (word : (front ++ text).length < 2 ^ 64) {fuel : Nat}
    (enough : text.length < fuel) (value : BitVec 64) :
    atoiLoop (front ++ text ++ 0 :: rest) fuel front.length value = .ok (value + terms text) := by
  induction text generalizing front fuel value with
  | nil =>
    obtain ⟨fuel, rfl⟩ : ∃ turns, fuel = turns + 1 := ⟨fuel - 1, by omega⟩
    have none' : value + terms [] = value := BitVec.add_zero value
    rw [List.append_nil, atoiLoop, byteAt_front, ok_bind, if_pos rfl, none']
    rfl
  | cons byte text ih =>
    obtain ⟨fuel, rfl⟩ : ∃ turns, fuel = turns + 1 := ⟨fuel - 1, by omega⟩
    have nonzero : byte ≠ 0 := fun zero => clean (zero ▸ List.mem_append_right _ List.mem_cons_self)
    have here : byteAt (front ++ byte :: text ++ 0 :: rest) front.length = .ok byte := by
      rw [List.append_assoc, List.cons_append]
      exact byteAt_front front byte _
    have power : wrapSub (wrapSub (front ++ byte :: text).length front.length) 1 = text.length := by
      rw [List.length_append, List.length_cons] at word ⊢
      simp only [wrapSub, wrap]
      omega
    have shape : front ++ byte :: text = front ++ [byte] ++ text := by simp
    have place : front.length + 1 = (front ++ [byte]).length := by simp
    rw [atoiLoop, here, ok_bind, if_neg nonzero, strlen_text clean, ok_bind, power, terms, ← BitVec.add_assoc]
    rw [shape] at clean word ⊢
    rw [place]
    exact ih clean word (by simpa using enough) _

/-- A decimal numeral is read back as its number. -/
theorem atoi_numeral {value : Nat} (small : value < 2 ^ 31) :
    atoi (numeral 10 value ++ 0 :: rest) = .ok (value : Int) := by
  obtain ⟨digits, spelled, below, number⟩ := numeral_spells (by decide : 1 < 10) value
  have clean := numeral_clean (by decide : 1 < 10) (by decide) value
  have short := length_word (by decide : 1 < 10) (by omega : value < 2 ^ 64)
  have looped := @atoiLoop_terms [] (numeral 10 value) rest clean (by rw [List.nil_append]; omega)
    ((numeral 10 value ++ 0 :: rest).length + 1) (by rw [List.length_append]; omega) 0
  have sum : terms (numeral 10 value) = BitVec.ofNat 64 value := by
    have long : digits.length ≤ 64 := by
      rw [spelled, List.length_map] at short
      exact short
    rw [spelled, terms_digits below (by omega) (by omega), number]
  obtain ⟨first, others, cons⟩ := List.exists_cons_of_length_pos (List.length_pos_iff.mpr (@numeral_ne_nil 10 value))
  have unsigned : first ≠ 45 := by
    have member : first ∈ digits.map digit := by rw [← spelled, cons]; exact List.mem_cons_self
    obtain ⟨code, inside, rfl⟩ := List.mem_map.mp member
    have small := below code inside
    interval_cases code <;> decide
  have start : byteAt (numeral 10 value ++ 0 :: rest) 0 = .ok first := by rw [cons]; rfl
  rw [List.nil_append, List.length_nil, sum, show 0 + BitVec.ofNat 64 value =
    BitVec.ofNat 64 value from BitVec.zero_add _] at looped
  rw [atoi, start, ok_bind, if_neg unsigned, looped, ok_bind, if_neg unsigned]
  have narrow : ((BitVec.ofNat 64 value).setWidth 32).toInt = value := by
    rw [BitVec.toInt_eq_toNat_of_lt]
    · rw [BitVec.toNat_setWidth, BitVec.toNat_ofNat]
      omega
    · rw [BitVec.toNat_setWidth, BitVec.toNat_ofNat]
      omega
  exact congrArg Except.ok narrow

end Parsing

section Hexadecimal

theorem hexStep_digit {value : Nat} (small : value < 16) (number : Nat) :
    hexStep (BitVec.ofNat 64 number) (digit value) = BitVec.ofNat 64 (16 * number + value) := by
  have code : (hexByte (digit value) &&& 0xf).toNat = value := by
    interval_cases value <;> rfl
  have shifted : (number % 2 ^ 64) <<< 4 % 2 ^ 64 = (number % 2 ^ 60) <<< 4 := by
    rw [Nat.shiftLeft_eq, Nat.shiftLeft_eq]
    omega
  apply BitVec.eq_of_toNat_eq
  rw [hexStep, BitVec.toNat_or, BitVec.toNat_shiftLeft, BitVec.toNat_setWidth, code, BitVec.toNat_ofNat, shifted,
    Nat.mod_eq_of_lt (by omega : value < 2 ^ 64), ← Nat.shiftLeft_add_eq_or_of_lt (by omega : value < 2 ^ 4),
    BitVec.toNat_ofNat, Nat.shiftLeft_eq]
  omega

theorem hexStep_digits {digits : List Nat} (below : ∀ value ∈ digits, value < 16) (number : Nat) :
    (digits.map digit).foldl hexStep (BitVec.ofNat 64 number) =
      BitVec.ofNat 64 (number * 16 ^ digits.length + Nat.ofDigits 16 digits.reverse) := by
  induction digits generalizing number with
  | nil => simp
  | cons value digits ih =>
    rw [List.map_cons, List.foldl_cons, hexStep_digit (below value List.mem_cons_self),
      ih (fun other member => below other (List.mem_cons_of_mem _ member)), ofDigits_first, List.length_cons]
    congr 1
    ring

theorem hex2intFrom_text (clean : 0 ∉ text) (value : BitVec 64) :
    hex2intFrom value (text ++ 0 :: rest) = .ok (text.foldl hexStep value) := by
  induction text generalizing value with
  | nil => rfl
  | cons byte text ih =>
    obtain ⟨nonzero, clean⟩ := not_or.mp (mt List.mem_cons.mpr clean)
    rw [List.cons_append, hex2intFrom, if_neg fun zero => nonzero zero.symm, ih clean]
    rfl

/-- A hexadecimal numeral is read back as its number. -/
theorem hex2int_numeral (value : Nat) : hex2int (numeral 16 value ++ 0 :: rest) = .ok (BitVec.ofNat 64 value) := by
  obtain ⟨digits, spelled, below, number⟩ := numeral_spells (by decide : 1 < 16) value
  have read := hexStep_digits below 0
  rw [number, Nat.zero_mul, Nat.zero_add] at read
  rw [hex2int, hex2intFrom_text (numeral_clean (by decide) (by decide) value), spelled]
  exact congrArg Except.ok read

/-- The first turns of a copy. -/
theorem copyString_turns (front old more : List (BitVec 8)) {count : Nat} (within : count ≤ text.length)
    (room : count ≤ old.length) :
    (List.range count).foldlM (fun str i => do
      let byte ← byteAt (text ++ 0 :: rest) i
      setByte str (i + front.length) byte) (front ++ old ++ more) = .ok
        (front ++ text.take count ++ old.drop count ++ more) := by
  induction count with
  | zero => simp; rfl
  | succ count ih =>
    have here : byteAt (text ++ 0 :: rest) count = .ok text[count] := by
      rw [byteAt, List.getElem?_append_left within, List.getElem?_eq_getElem within]
    have behind : front ++ text.take count ++ old.drop count ++ more =
        front ++ text.take count ++ old[count] :: (old.drop (count + 1) ++ more) := by
      rw [show old.drop count = old[count] :: old.drop (count + 1) from List.drop_eq_getElem_cons (by omega),
        List.append_assoc, List.cons_append]
    have grown : front ++ text.take (count + 1) ++ old.drop (count + 1) ++ more =
        front ++ text.take count ++ text[count] :: (old.drop (count + 1) ++ more) := by
      rw [← List.take_append_getElem within]
      simp only [List.append_assoc, List.cons_append, List.nil_append]
    have place : count + front.length = (front ++ text.take count).length := by
      rw [List.length_append, List.length_take]
      omega
    rw [List.range_succ, List.foldlM_append, ih (by omega) (by omega), ok_bind, List.foldlM_cons, here, ok_bind,
      behind, place, setByte_front, grown]
    rfl

theorem copyString_copies (front old more : List (BitVec 8)) (clean : 0 ∉ text) (fits : text.length = old.length) :
    copyString (front ++ old ++ more) (text ++ 0 :: rest) front.length = .ok (front ++ text ++ more) := by
  rw [copyString, strlen_text clean, ok_bind, copyString_turns front old more (Nat.le_refl _) (Nat.le_of_eq fits), fits,
    List.drop_length, ← fits, List.take_length]
  simp

/-- A text is put over the front of a buffer that is long enough for it. -/
theorem copyString_front (clean : 0 ∉ text) (buffer : List (BitVec 8)) :
    copyString buffer (text ++ 0 :: rest) 0 =
      if text.length ≤ buffer.length then .ok (text ++ buffer.drop text.length) else .error .outOfBounds := by
  split
  next fits =>
    have copied := @copyString_copies text rest [] (buffer.take text.length) (buffer.drop text.length) clean (by
      rw [List.length_take]
      omega)
    rwa [List.nil_append, List.take_append_drop] at copied
  next long =>
    have short : buffer.length < text.length := by omega
    -- the turn for the byte behind the buffer
    obtain ⟨more, turns⟩ : ∃ more, text.length = buffer.length + (more + 1) :=
      ⟨text.length - buffer.length - 1, by omega⟩
    have filled := @copyString_turns text rest [] buffer [] buffer.length (Nat.le_of_lt short) (Nat.le_refl _)
    have here : byteAt (text ++ 0 :: rest) buffer.length = .ok text[buffer.length] := by
      rw [byteAt, List.getElem?_append_left short, List.getElem?_eq_getElem short]
    have full : (text.take buffer.length).length = buffer.length := by
      rw [List.length_take]
      omega
    rw [List.nil_append, List.append_nil, List.nil_append, List.drop_length, List.append_nil, List.append_nil,
      List.length_nil] at filled
    rw [copyString, strlen_text clean, ok_bind, turns, List.range_add, List.foldlM_append, filled, ok_bind,
      List.range_succ_eq_map, List.map_cons, List.foldlM_cons, Nat.add_zero, here, ok_bind, setByte,
      if_neg (by rw [full]; omega)]
    rfl

theorem left_half (value : BitVec 64) : ((value &&& 0xffffffff00000000) >>> 32).toNat = value.toNat / 2 ^ 32 := by
  have mask : (0xffffffff00000000 : BitVec 64) = BitVec.allOnes 64 <<< 32 := by decide
  have same : (value &&& 0xffffffff00000000) >>> 32 = value >>> 32 := by
    rw [mask]
    apply BitVec.eq_of_getLsbD_eq
    intro place inside
    rw [BitVec.getLsbD_ushiftRight, BitVec.getLsbD_ushiftRight, BitVec.getLsbD_and, BitVec.getLsbD_shiftLeft,
      BitVec.getLsbD_allOnes]
    by_cases within : 32 + place < 64
    · rw [decide_eq_true within, decide_eq_false (by omega), decide_eq_true (by omega)]
      simp
    · rw [BitVec.getLsbD_of_ge value _ (by omega), Bool.false_and]
  rw [same, BitVec.toNat_ushiftRight, Nat.shiftRight_eq_div_pow]

theorem right_half (value : BitVec 64) : (value &&& 0xffffffff).toNat = value.toNat % 2 ^ 32 := by
  rw [BitVec.toNat_and]
  exact Nat.and_two_pow_sub_one_eq_mod value.toNat 32

theorem half_toInt {half : BitVec 64} (small : half.toNat < 2 ^ 32) : half.toInt = (half.toNat : Int) :=
  BitVec.toInt_eq_toNat_of_lt (by omega)

/-- A negative value is written as the numerals of its two halves. -/
theorem itoa_halves (stack : Nat → BitVec 8) {value : BitVec 64} (negative : value.toInt < 0) {old : List (BitVec 8)}
    (fits : old.length = (numeral 16 (value.toNat / 2 ^ 32)).length + (numeral 16 (value.toNat % 2 ^ 32)).length) :
    itoa stack value (old ++ rest) 16 =
      .ok (numeral 16 (value.toNat / 2 ^ 32) ++ numeral 16 (value.toNat % 2 ^ 32) ++ rest) := by
  have word := value.isLt
  have local' (place : Nat → BitVec 8) {half : Nat} (small : half < 2 ^ 32) : ∃ behind,
      itoaWhole (half : Int) ((List.range 32).map place) 16 = .ok (numeral 16 half ++ 0 :: behind) := by
    have short : (numeral 16 half).length ≤ 8 := (length_numeral_le_iff (by decide) (by decide)).mpr small
    have room : (numeral 16 half).length < ((List.range 32).map place).length := by
      rw [List.length_map, List.length_range]
      omega
    exact ⟨_, itoaWhole_numeral (by decide) (by decide) (by omega) room⟩
  have high : value.toNat / 2 ^ 32 < 2 ^ 32 := by omega
  have low : value.toNat % 2 ^ 32 < 2 ^ 32 := by omega
  obtain ⟨behind, left⟩ := local' stack high
  obtain ⟨behind', right⟩ := local' (fun i => stack (32 + i)) low
  have leftInt := @half_toInt ((value &&& 0xffffffff00000000) >>> 32) (by rw [left_half]; exact high)
  have rightInt := @half_toInt (value &&& 0xffffffff) (by rw [right_half]; exact low)
  rw [left_half] at leftInt
  rw [right_half] at rightInt
  have cleanLeft := numeral_clean (by decide : 1 < 16) (by decide) (value.toNat / 2 ^ 32)
  have cleanRight := numeral_clean (by decide : 1 < 16) (by decide) (value.toNat % 2 ^ 32)
  rw [itoa, if_pos ⟨negative, by decide⟩]
  simp only [leftInt, rightInt]
  rw [left, ok_bind, right, ok_bind]
  generalize numeral 16 (value.toNat / 2 ^ 32) = first at *
  generalize numeral 16 (value.toNat % 2 ^ 32) = second at *
  have firstCopy := @copyString_copies first behind [] (old.take first.length) (old.drop first.length ++ rest) cleanLeft
    (by rw [List.length_take]; omega)
  have secondCopy := @copyString_copies second behind' first (old.drop first.length) rest cleanRight
    (by rw [List.length_drop]; omega)
  rw [List.nil_append, List.nil_append, ← List.append_assoc, List.take_append_drop, List.length_nil] at firstCopy
  rw [firstCopy, ok_bind, strlen_text cleanLeft, ok_bind, ← List.append_assoc, secondCopy]

end Hexadecimal

end Navy
