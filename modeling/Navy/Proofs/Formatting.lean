import Navy.Fmt
import Navy.Proofs.Numbers

/-! Formatted printing follows the grammar of its formats: characters, and
placeholders between braces. The scanner stays inside of a format whose braces are
closed. -/

namespace Navy
open Outcome Numerals

/-- A part of a format. -/
inductive Piece where
  | literal (byte : BitVec 8)
  | hole (body : List (BitVec 8))

namespace Piece

def spell : Piece → List (BitVec 8)
  | literal byte => [byte]
  | hole body => 123 :: (body ++ [125])

/-- A literal opens no placeholder, and a placeholder ends with its first closing brace. -/
def Proper : Piece → Prop
  | literal byte => byte ≠ 0 ∧ byte ≠ 123
  | hole body => 0 ∉ body ∧ 125 ∉ body

end Piece

def spell (pieces : List Piece) : List (BitVec 8) := pieces.flatMap Piece.spell

/-- The string `itoa` leaves in a cleared buffer. -/
def itoaText (stack : Nat → BitVec 8) (value : BitVec 64) (base : Nat) : List (BitVec 8) :=
  match itoa stack value (List.replicate 256 0) base with
  | .ok buffer => textOf buffer
  | .error _ => []

/-- An integer in the largest unit it fills, with the letters of the unit. -/
def scaled (stack : Nat → BitVec 8) (value : BitVec 64) : List (BitVec 8) :=
  if 2 ^ 30 ≤ value.toInt then itoaText stack (BitVec.ofInt 64 (value.toInt / 2 ^ 30)) 10 ++ [71, 66]
  else if 2 ^ 20 ≤ value.toInt then itoaText stack (BitVec.ofInt 64 (value.toInt / 2 ^ 20)) 10 ++ [77, 66]
  else if 2 ^ 10 ≤ value.toInt then itoaText stack (BitVec.ofInt 64 (value.toInt / 2 ^ 10)) 10 ++ [75, 66]
  else itoaText stack value 10 ++ [66]

/-- An argument as a placeholder of some mode shows it. -/
def rendering (stack : Nat → BitVec 8) (mode : BitVec 8) : FmtValue → List (BitVec 8)
  | .char chr => if chr = 0 then [] else [chr]
  | .string str => str.bytes
  | .decimal value =>
    if mode = 97 then (itoaText stack value 16).leftpad 16 48
    else if mode = 120 then itoaText stack value 16
    else if mode = 77 then scaled stack value
    else itoaText stack value 10

/-- The output for a format, with the placeholders counted from `hole` on. -/
def render (stack : Nat → BitVec 8) (args : List FmtValue) : Nat → List Piece → List (BitVec 8)
  | _, [] => []
  | hole, .literal byte :: rest => byte :: render stack args hole rest
  | hole, .hole body :: rest =>
    ((args[hole]?).map (rendering stack (body.getLastD 0))).getD [] ++ render stack args (hole + 1) rest

/-- What the callback is given, put together. -/
def printed (trace : Printing α) : List (BitVec 8) :=
  trace.events.flatMap fun event => match event with
    | .callback s => s
    | .read _ => []

/-- A read of the format, if it is one, is not behind the terminator. -/
def InFormat (bound : Nat) : FmtEvent → Prop
  | .read index => index ≤ bound
  | .callback _ => True

/-- A computation that comes to its end with a text printed, and reads inside of a bound. -/
structure Prints (bound : Nat) (trace : Printing α) (text : List (BitVec 8)) (value : α) : Prop where
  outcome : trace.outcome = .ok value
  text : printed trace = text
  reads : Traced.Only (InFormat bound) trace

variable {bound : Nat} {stack : Nat → BitVec 8} {args : List FmtValue} {α β : Type}

theorem Prints.pure (value : α) : Prints bound (Pure.pure value) [] value := ⟨rfl, rfl, Traced.only_pure value⟩

theorem printed_bind {first : Printing α} {next : α → Printing β} {value : α} (ran : first.outcome = .ok value) :
    printed (first >>= next) = printed first ++ printed (next value) := by
  rw [printed, Traced.events_bind ran, List.flatMap_append]
  rfl

theorem Prints.bind {first : Printing α} {next : α → Printing β} {text more : List (BitVec 8)} {value : α} {result : β}
    (before : Prints bound first text value) (after : Prints bound (next value) more result) :
    Prints bound (first >>= next) (text ++ more) result := by
  constructor
  · rw [Traced.outcome_bind, before.outcome]
    exact after.outcome
  · rw [printed_bind before.outcome, before.text, after.text]
  · refine Traced.only_bind.mpr ⟨before.reads, fun other ran => ?_⟩
    obtain rfl := Except.ok.inj (before.outcome.symm.trans ran)
    exact after.reads

theorem Prints.silent {outcome : Checked α} {value : α} (ran : outcome = .ok value) :
    Prints bound (Traced.silent outcome) [] value := ⟨ran, rfl, Traced.only_silent outcome⟩

theorem Prints.callback (s : List (BitVec 8)) : Prints bound (Navy.callback s) (textOf s) () :=
  ⟨rfl, by simp [printed, Navy.callback, Traced.emit], Traced.only_emit.mpr trivial⟩

theorem Prints.callbackIf (condition : Prop) [Decidable condition] (s : List (BitVec 8)) :
    Prints bound (Navy.callbackIf condition s) (if condition then textOf s else []) () := by
  unfold Navy.callbackIf
  split
  · exact Prints.callback s
  · exact Prints.pure ()

theorem Prints.read {scanner : FmtScanner} {index : Nat} {byte : BitVec 8}
    (here : byteAt scanner.format index = .ok byte) (inside : index ≤ bound) :
    Prints bound (scanner.read index) [] byte := by
  have event : Prints bound (Traced.emit (FmtEvent.read index) : Printing Unit) [] () := by
    refine ⟨rfl, rfl, Traced.only_emit.mpr ?_⟩
    exact inside
  exact event.bind (Prints.silent here)

section Scanning

/-- A scanner between what it has read of a format and what is left. -/
def Standing (front behind rest : List (BitVec 8)) : FmtScanner :=
  ⟨front ++ (behind ++ 0 :: rest), (front ++ behind).length, front.length⟩

variable {front behind more body rest : List (BitVec 8)} {byte : BitVec 8}

theorem standing_step (front more rest : List (BitVec 8)) (byte : BitVec 8) :
    { Standing front (byte :: more) rest with offset := front.length + 1 } = Standing (front ++ [byte]) more rest := by
  simp [Standing]

theorem current_char (bounded : (front ++ byte :: more).length ≤ bound) :
    Prints bound (fmtScannerCurrent (Standing front (byte :: more) rest)) [] byte := by
  have long : (Standing front (byte :: more) rest).offset < (Standing front (byte :: more) rest).size := by
    simp [Standing]
  unfold fmtScannerCurrent
  rw [if_pos long]
  exact Prints.read (byteAt_front front byte _) (Nat.le_trans (Nat.le_of_lt long) bounded)

theorem current_end : Prints bound (fmtScannerCurrent (Standing front [] rest)) [] 0 := by
  unfold fmtScannerCurrent
  rw [if_neg (by simp [Standing])]
  exact Prints.pure 0

theorem next_char (bounded : (front ++ byte :: more).length ≤ bound) :
    Prints bound (fmtScannerNext (Standing front (byte :: more) rest)) [] (Standing (front ++ [byte]) more rest) := by
  have long : front.length + 1 ≤ (front ++ byte :: more).length := by simp
  obtain ⟨next, here⟩ : ∃ next, byteAt (Standing front (byte :: more) rest).format (front.length + 1) = .ok next := by
    have inside : front.length + 1 < (front ++ (byte :: more ++ 0 :: rest)).length := by simp
    exact ⟨_, by rw [byteAt, Standing, List.getElem?_eq_getElem inside]⟩
  have read : Prints bound ((Standing front (byte :: more) rest).read (front.length + 1)) [] next :=
    Prints.read here (by omega)
  rw [← standing_step]
  exact read.bind (Prints.pure _)

/-- At the end of the format the scanner reads behind the terminator. -/
theorem next_end : ¬ Traced.Only (InFormat front.length) (fmtScannerNext (Standing front [] rest)) := by
  intro only
  have behind := (Traced.only_bind.mp (Traced.only_bind.mp only).1).1 (.read (front.length + 1))
    (by simp [Traced.emit, Standing])
  simp [InFormat] at behind

/-- One turn of the loop, at a character that does not end it. -/
theorem skipPlaceholder_turn {next : BitVec 8} (nonzero : byte ≠ 0) (open' : byte ≠ 125)
    (bounded : (front ++ byte :: next :: more).length ≤ bound) {fuel : Nat} {mode : BitVec 8}
    {result : FmtScanner × BitVec 8}
    (ahead : Prints bound (skipPlaceholder fuel (Standing (front ++ [byte]) (next :: more) rest)
      (if next = 125 then mode else next)) [] result) :
    Prints bound (skipPlaceholder (fuel + 1) (Standing front (byte :: next :: more) rest) mode) [] result := by
  have bounded' : (front ++ [byte] ++ next :: more).length ≤ bound := by simpa using bounded
  rw [skipPlaceholder]
  refine (current_char bounded).bind ?_
  rw [if_neg open']
  refine (current_char bounded).bind ?_
  rw [if_neg nonzero]
  refine (next_char bounded).bind ((current_char bounded').bind ?_)
  split at ahead
  next closes =>
    rw [if_pos closes]
    exact ahead
  next inner =>
    rw [if_neg inner]
    exact (current_char bounded').bind ahead

theorem skipPlaceholder_closed (nonzero : byte ≠ 0) (open' : byte ≠ 125) (clean : 0 ∉ body) (inner : 125 ∉ body)
    (bounded : (front ++ byte :: (body ++ 125 :: more)).length ≤ bound) {fuel : Nat}
    (enough : body.length + 2 ≤ fuel) (mode : BitVec 8) :
    Prints bound (skipPlaceholder fuel (Standing front (byte :: (body ++ 125 :: more)) rest) mode) []
      (Standing (front ++ byte :: body) (125 :: more) rest, body.getLastD mode) := by
  obtain ⟨fuel, rfl⟩ : ∃ turns, fuel = turns + 1 := ⟨fuel - 1, by omega⟩
  induction body generalizing front byte fuel mode with
  | nil =>
    obtain ⟨fuel, rfl⟩ : ∃ turns, fuel = turns + 1 := ⟨fuel - 1, by simp at enough; omega⟩
    have bounded' : (front ++ [byte] ++ 125 :: more).length ≤ bound := by simpa using bounded
    apply skipPlaceholder_turn nonzero open' bounded
    rw [if_pos rfl, skipPlaceholder]
    refine (current_char bounded').bind ?_
    rw [if_pos rfl]
    exact Prints.pure _
  | cons next body ih =>
    obtain ⟨nonzero', clean⟩ := not_or.mp (mt List.mem_cons.mpr clean)
    obtain ⟨open'', inner⟩ := not_or.mp (mt List.mem_cons.mpr inner)
    have bounded' : (front ++ [byte] ++ next :: (body ++ 125 :: more)).length ≤ bound := by simpa using bounded
    have shape : front ++ byte :: next :: body = front ++ [byte] ++ next :: body := by simp
    obtain ⟨fuel, rfl⟩ : ∃ turns, fuel = turns + 1 := ⟨fuel - 1, by simp at enough; omega⟩
    apply skipPlaceholder_turn nonzero open' bounded
    rw [if_neg fun same => open'' same.symm, List.getLastD_cons, shape]
    exact ih (fun same => nonzero' same.symm) (fun same => open'' same.symm) clean inner bounded' _ _
      (by simpa using enough)

/-- Without a closing brace the loop goes to the end. -/
theorem skipPlaceholder_open (nonzero : byte ≠ 0) (open' : byte ≠ 125) (clean : 0 ∉ body) (inner : 125 ∉ body)
    (bounded : (front ++ byte :: body).length ≤ bound) {fuel : Nat} (enough : body.length + 2 ≤ fuel)
    (mode : BitVec 8) :
    ∃ last, Prints bound (skipPlaceholder fuel (Standing front (byte :: body) rest) mode) []
      (Standing (front ++ byte :: body) [] rest, last) := by
  obtain ⟨fuel, rfl⟩ : ∃ turns, fuel = turns + 1 := ⟨fuel - 1, by omega⟩
  induction body generalizing front byte fuel mode with
  | nil =>
    obtain ⟨fuel, rfl⟩ : ∃ turns, fuel = turns + 1 := ⟨fuel - 1, by simp at enough; omega⟩
    refine ⟨0, ?_⟩
    rw [skipPlaceholder]
    refine (current_char bounded).bind ?_
    rw [if_neg open']
    refine (current_char bounded).bind ?_
    rw [if_neg nonzero]
    refine (next_char bounded).bind (current_end.bind ?_)
    rw [if_neg (by decide)]
    refine current_end.bind ?_
    rw [skipPlaceholder]
    refine current_end.bind ?_
    rw [if_neg (by decide)]
    refine current_end.bind ?_
    rw [if_pos rfl]
    exact Prints.pure _
  | cons next body ih =>
    obtain ⟨nonzero', clean⟩ := not_or.mp (mt List.mem_cons.mpr clean)
    obtain ⟨open'', inner⟩ := not_or.mp (mt List.mem_cons.mpr inner)
    have bounded' : (front ++ [byte] ++ next :: body).length ≤ bound := by simpa using bounded
    have shape : front ++ byte :: next :: body = front ++ [byte] ++ next :: body := by simp
    obtain ⟨fuel, rfl⟩ : ∃ turns, fuel = turns + 1 := ⟨fuel - 1, by simp at enough; omega⟩
    obtain ⟨last, ahead⟩ :=
      ih (fun same => nonzero' same.symm) (fun same => open'' same.symm) clean inner bounded' next _
        (by simpa using enough)
    refine ⟨last, ?_⟩
    apply skipPlaceholder_turn nonzero open' bounded
    rw [if_neg fun same => open'' same.symm, shape]
    exact ahead

end Scanning

section Arguments

/-- `itoa` fills a cleared buffer with a string, in the bases that are used. -/
theorem itoa_prints (stack : Nat → BitVec 8) (value : BitVec 64) {base : Nat} (used : base = 10 ∨ base = 16) :
    ∃ text rest, itoa stack value (List.replicate 256 0) base = .ok (text ++ 0 :: rest) ∧ 0 ∉ text := by
  have word := value.isLt
  have proper : 1 < base ∧ base ≤ 16 := by omega
  by_cases natural : 0 ≤ value.toInt
  · have short : (numeral base value.toNat).length ≤ 64 :=
      (length_numeral_le_iff proper.1 (by decide)).mpr (Nat.lt_of_lt_of_le word (Nat.pow_le_pow_left proper.1 64))
    have room : (numeral base value.toNat).length < (List.replicate 256 (0 : BitVec 8)).length := by
      rw [List.length_replicate]
      omega
    exact ⟨_, _, itoa_numeral stack proper.1 proper.2 natural room, numeral_clean proper.1 proper.2 _⟩
  · cases used with
    | inl ten =>
      obtain ⟨written, rest, ran, clean⟩ := @itoaWhole_negative (List.replicate 256 0) _ (by omega) value.le_toInt
        (by rw [List.length_replicate]; decide)
      exact ⟨written ++ [45], rest, by rw [ten, itoa_whole _ (.inr rfl), ran], by simpa using clean⟩
    | inr sixteen =>
      have high : (numeral 16 (value.toNat / 2 ^ 32)).length ≤ 8 :=
        (length_numeral_le_iff (by decide) (by decide)).mpr (by omega)
      have low : (numeral 16 (value.toNat % 2 ^ 32)).length ≤ 8 :=
        (length_numeral_le_iff (by decide) (by decide)).mpr (by omega)
      generalize count : (numeral 16 (value.toNat / 2 ^ 32)).length + (numeral 16 (value.toNat % 2 ^ 32)).length = room
      have split : List.replicate 256 (0 : BitVec 8) = List.replicate room 0 ++ 0 :: List.replicate (255 - room) 0 := by
        rw [← List.replicate_succ, List.replicate_append_replicate]
        congr 1
        omega
      have ran := @itoa_halves (0 :: List.replicate (255 - room) 0) stack value (by omega) (List.replicate room 0)
        (by rw [List.length_replicate, count])
      rw [sixteen, split]
      refine ⟨_, _, ran, ?_⟩
      rw [List.mem_append, not_or]
      exact ⟨numeral_clean (by decide) (by decide) _, numeral_clean (by decide) (by decide) _⟩

theorem textOf_padding (count behind : Nat) :
    textOf (List.replicate count 48 ++ List.replicate behind (0 : BitVec 8)) = List.replicate count 48 := by
  have clean : (0 : BitVec 8) ∉ List.replicate count 48 := by
    rw [List.mem_replicate]
    exact fun both => absurd both.2 (by decide)
  cases behind with
  | zero =>
    rw [List.replicate_zero, List.append_nil]
    induction count with
    | zero => rfl
    | succ count ih =>
      rw [List.replicate_succ, textOf, if_neg (by decide), ih fun member => clean (List.mem_cons_of_mem _ member)]
  | succ behind => exact textOf_text clean

theorem printDecimal_prints (stack : Nat → BitVec 8) {style : DecimalStyle} (used : style.base = 10 ∨ style.base = 16) :
    Prints bound (printDecimal stack style) ((itoaText stack style.nbr style.base).leftpad style.pad 48 ++
      if (style.unit.headD 0).toInt > 0 then textOf style.unit else []) () := by
  obtain ⟨text, rest, ran, clean⟩ := itoa_prints stack style.nbr used
  have shown : itoaText stack style.nbr style.base = text := by
    rw [itoaText, ran]
    exact textOf_text clean
  have unit' := @Prints.callbackIf bound ((style.unit.headD 0).toInt > 0) _ style.unit
  have number : Prints bound (callback (text ++ 0 :: rest)) text () := by
    have all := @Prints.callback bound (text ++ 0 :: rest)
    rwa [textOf_text clean] at all
  have padding : Prints bound (callbackIf (text.length < style.pad)
      (List.replicate (style.pad - text.length) 48 ++ List.replicate (32 - (style.pad - text.length)) 0))
      (List.replicate (style.pad - text.length) 48) () := by
    have all := @Prints.callbackIf bound (text.length < style.pad) _
      (List.replicate (style.pad - text.length) 48 ++ List.replicate (32 - (style.pad - text.length)) 0)
    rw [textOf_padding] at all
    by_cases short : text.length < style.pad
    · rwa [if_pos short] at all
    · rw [if_neg short] at all
      rwa [Nat.sub_eq_zero_of_le (Nat.le_of_not_lt short)] at all ⊢
  rw [shown, List.leftpad, List.append_assoc]
  exact (Prints.silent ran).bind ((Prints.silent (strlen_text clean)).bind (padding.bind (number.bind unit')))

/-- Without a unit only the number is shown. -/
theorem number_prints (stack : Nat → BitVec 8) {base : Nat} (used : base = 10 ∨ base = 16) (pad : Nat)
    (nbr : BitVec 64) :
    Prints bound (printDecimal stack ⟨base, pad, nbr, [0, 66, 0]⟩) ((itoaText stack nbr base).leftpad pad 48) () := by
  have hidden : ¬ (([0, 66, 0] : List (BitVec 8)).headD 0).toInt > 0 := by decide
  have all := @printDecimal_prints bound stack ⟨base, pad, nbr, [0, 66, 0]⟩ used
  dsimp only at all
  rwa [if_neg hidden, List.append_nil] at all

theorem unit_prints (stack : Nat → BitVec 8) (nbr : BitVec 64) {unit : List (BitVec 8)}
    (shown : (unit.headD 0).toInt > 0) :
    Prints bound (printDecimal stack ⟨10, 0, nbr, unit⟩) (itoaText stack nbr 10 ++ textOf unit) () := by
  have all := @printDecimal_prints bound stack ⟨10, 0, nbr, unit⟩ (.inl rfl)
  dsimp only at all
  rwa [if_pos shown, List.leftpad, Nat.zero_sub, List.replicate_zero, List.nil_append] at all

theorem one_le_tdiv (value : Int) {unit : Int} (some' : 0 < unit) : value.tdiv unit ≥ 1 ↔ unit ≤ value := by
  constructor
  · intro large
    by_contra small
    by_cases natural : 0 ≤ value
    · rw [Int.tdiv_eq_zero_of_lt natural (by omega)] at large
      omega
    · have opposite := Int.tdiv_nonneg (by omega : 0 ≤ -value) (Int.le_of_lt some')
      rw [Int.neg_tdiv] at opposite
      omega
  · intro large
    rw [Int.tdiv_eq_ediv_of_nonneg (by omega)]
    exact Int.le_ediv_of_mul_le some' (by omega)

/-- In mode `M` a number is shown in the largest unit it fills. -/
theorem scaled_prints (stack : Nat → BitVec 8) (value : BitVec 64) :
    Prints bound (printDecimal stack (decimalStyle 77 value)) (scaled stack value) () := by
  have gigabytes : value.toInt.tdiv 1073741824 ≥ 1 ↔ 2 ^ 30 ≤ value.toInt := one_le_tdiv _ (by decide)
  have megabytes : value.toInt.tdiv 1048576 ≥ 1 ↔ 2 ^ 20 ≤ value.toInt := one_le_tdiv _ (by decide)
  have kilobytes : value.toInt.tdiv 1024 ≥ 1 ↔ 2 ^ 10 ≤ value.toInt := one_le_tdiv _ (by decide)
  rw [decimalStyle, if_neg (by decide), if_neg (by decide), if_pos rfl, scaled]
  by_cases giga : 2 ^ 30 ≤ value.toInt
  · rw [if_pos giga, if_pos (gigabytes.mpr giga), Int.tdiv_eq_ediv_of_nonneg (by omega)]
    exact unit_prints stack _ (by decide)
  rw [if_neg giga, if_neg (mt gigabytes.mp giga)]
  by_cases mega : 2 ^ 20 ≤ value.toInt
  · rw [if_pos mega, if_pos (megabytes.mpr mega), Int.tdiv_eq_ediv_of_nonneg (by omega)]
    exact unit_prints stack _ (by decide)
  rw [if_neg mega, if_neg (mt megabytes.mp mega)]
  by_cases kilo : 2 ^ 10 ≤ value.toInt
  · rw [if_pos kilo, if_pos (kilobytes.mpr kilo), Int.tdiv_eq_ediv_of_nonneg (by omega)]
    exact unit_prints stack _ (by decide)
  rw [if_neg kilo, if_neg (mt kilobytes.mp kilo)]
  exact unit_prints stack _ (by decide)

theorem printValue_prints (stack : Nat → BitVec 8) (mode : BitVec 8) (value : FmtValue) :
    Prints bound (printValue stack mode value) (rendering stack mode value) () := by
  have unpadded (text : List (BitVec 8)) : text.leftpad 0 48 = text := by simp [List.leftpad]
  cases value with
  | char chr =>
    have shown : textOf [chr, 0] = rendering stack mode (.char chr) := by
      rw [textOf, rendering]
      rfl
    rw [← shown]
    exact Prints.callback _
  | string str =>
    have all := @Prints.callback bound (str.bytes ++ [0])
    rwa [textOf_text str.clean] at all
  | decimal value =>
    rw [printValue, rendering]
    by_cases address : mode = 97
    · rw [if_pos address, decimalStyle, if_pos address]
      exact number_prints stack (.inr rfl) 16 value
    rw [if_neg address]
    by_cases hexadecimal : mode = 120
    · rw [if_pos hexadecimal, decimalStyle, if_neg address, if_pos hexadecimal, ← unpadded (itoaText stack value 16)]
      exact number_prints stack (.inr rfl) 0 value
    rw [if_neg hexadecimal]
    by_cases size : mode = 77
    · rw [if_pos size, size]
      exact scaled_prints stack value
    rw [if_neg size, decimalStyle, if_neg address, if_neg hexadecimal, if_neg size,
      ← unpadded (itoaText stack value 10)]
    exact number_prints stack (.inl rfl) 0 value

theorem printArgument_prints (mode : BitVec 8) (hole : Nat) :
    Prints bound (printArgument stack args mode (min hole args.length))
      (((args[hole]?).map (rendering stack mode)).getD [])
      (min (hole + 1) args.length) := by
  unfold printArgument
  rcases Nat.lt_or_ge hole args.length with inside | spent
  · rw [Nat.min_eq_left (Nat.le_of_lt inside), List.getElem?_eq_getElem inside, Nat.min_eq_left inside]
    have turn : Prints bound (do printValue stack mode args[hole]; return hole + 1)
      (rendering stack mode args[hole] ++ []) (hole + 1) :=
      (printValue_prints stack mode args[hole]).bind (Prints.pure _)
    rwa [List.append_nil] at turn
  · rw [Nat.min_eq_right spent, List.getElem?_eq_none (Nat.le_refl _), List.getElem?_eq_none spent,
      Nat.min_eq_right (by omega)]
    exact Prints.pure _

end Arguments

section Turns

variable {front more rest : List (BitVec 8)}

theorem literal_turn {byte : BitVec 8} (nonzero : byte ≠ 0) (plain : byte ≠ 123)
    (bounded : (front ++ byte :: more).length ≤ bound) (current : Nat) :
    Prints bound (printTurn stack args (Standing front (byte :: more) rest) current) [byte]
      (Standing (front ++ [byte]) more rest, current) := by
  have shown := @Prints.callback bound [byte, 0]
  have text : textOf [byte, 0] = [byte] := by
    rw [textOf, if_neg nonzero]
    rfl
  rw [text] at shown
  rw [printTurn]
  refine (current_char bounded).bind ?_
  rw [if_neg plain]
  exact (current_char bounded).bind (shown.bind ((next_char bounded).bind (Prints.pure _)))

theorem hole_turn {body : List (BitVec 8)} (clean : 0 ∉ body) (inner : 125 ∉ body)
    (bounded : (front ++ 123 :: (body ++ 125 :: more)).length ≤ bound) (hole : Nat) :
    Prints bound (printTurn stack args (Standing front (123 :: (body ++ 125 :: more)) rest) (min hole args.length))
      (((args[hole]?).map (rendering stack (body.getLastD 0))).getD [])
      (Standing (front ++ Piece.spell (.hole body)) more rest, min (hole + 1) args.length) := by
  have bounded' : (front ++ 123 :: body ++ 125 :: more).length ≤ bound := by simpa using bounded
  have shape : front ++ Piece.spell (.hole body) = front ++ 123 :: body ++ [125] := by simp [Piece.spell]
  have skipped := @skipPlaceholder_closed bound front more body rest 123 (by decide) (by decide) clean inner bounded
    ((Standing front (123 :: (body ++ 125 :: more)) rest).size + 1) (by simp [Standing]; omega) 0
  have argument := @printArgument_prints bound stack args (body.getLastD 0) hole
  generalize ((args[hole]?).map (rendering stack (body.getLastD 0))).getD [] = text at argument ⊢
  rw [printTurn, shape]
  refine (current_char bounded).bind ?_
  rw [if_pos rfl]
  refine skipped.bind ?_
  rw [← List.append_nil text]
  exact argument.bind ((next_char bounded').bind (Prints.pure _))

/-- An open placeholder sends the scanner behind the terminator. -/
theorem open_turn {body : List (BitVec 8)} (clean : 0 ∉ body) (inner : 125 ∉ body) (current : Nat) :
    ¬ Traced.Only (InFormat (front ++ 123 :: body).length)
      (printTurn stack args (Standing front (123 :: body) rest) current) := by
  intro only
  have bounded := Nat.le_refl (front ++ 123 :: body).length
  obtain ⟨last, skipped⟩ := @skipPlaceholder_open _ front body rest 123 (by decide) (by decide) clean inner bounded
    ((Standing front (123 :: body) rest).size + 1) (by simp [Standing]) 0
  have here : Prints _ (fmtScannerCurrent (Standing front (123 :: body) rest)) [] 123 := current_char bounded
  unfold printTurn at only
  have afterBrace := (Traced.only_bind.mp only).2 _ here.outcome
  rw [if_pos rfl] at afterBrace
  have afterSkip := (Traced.only_bind.mp afterBrace).2 _ skipped.outcome
  obtain ⟨next, printedNext⟩ : ∃ next text, Prints (front ++ 123 :: body).length
    (printArgument stack args last current) text next := by
    unfold printArgument
    cases args[current]? with
    | none => exact ⟨_, _, Prints.pure _⟩
    | some value => exact ⟨_, _, (printValue_prints stack last value).bind (Prints.pure _)⟩
  obtain ⟨text, printedNext⟩ := printedNext
  have afterArgument := (Traced.only_bind.mp afterSkip).2 _ printedNext.outcome
  exact next_end (Traced.only_bind.mp afterArgument).1

end Turns

section Runs

variable {front rest : List (BitVec 8)} {pieces : List Piece}

theorem length_pieces (pieces : List Piece) : pieces.length ≤ (spell pieces).length := by
  induction pieces with
  | nil => exact Nat.le_refl 0
  | cons piece pieces ih =>
    have long : 0 < piece.spell.length := by cases piece <;> simp [Piece.spell]
    rw [spell, List.flatMap_cons, List.length_append, List.length_cons]
    rw [spell] at ih
    omega

theorem spell_cons (piece : Piece) (pieces : List Piece) (tail : List (BitVec 8)) :
    spell (piece :: pieces) ++ tail = piece.spell ++ (spell pieces ++ tail) := by
  rw [spell, List.flatMap_cons, List.append_assoc]
  rfl

/-- One piece of a format, whatever stands behind it. -/
theorem piece_turn {piece : Piece} (proper : piece.Proper) (more : List (BitVec 8))
    (bounded : (front ++ (piece.spell ++ more)).length ≤ bound) (hole : Nat) :
    ∃ hole', Prints bound (printTurn stack args (Standing front (piece.spell ++ more) rest)
      (min hole args.length))
      (render stack args hole [piece]) (Standing (front ++ piece.spell) more rest, min hole' args.length) ∧
      ∀ pieces, render stack args hole (piece :: pieces) = render stack args hole
        [piece] ++ render stack args hole' pieces := by
  cases piece with
  | literal byte => exact ⟨hole, literal_turn proper.1 proper.2 bounded _, fun _ => rfl⟩
  | hole body =>
    have shape : Piece.spell (.hole body) ++ more = 123 :: (body ++ 125 :: more) := by simp [Piece.spell]
    rw [shape] at bounded ⊢
    refine ⟨hole + 1, ?_, fun pieces => by simp [render]⟩
    have turn := @hole_turn bound stack args front more rest body proper.1 proper.2 bounded hole
    rwa [render, render, List.append_nil]

theorem piece_first {piece : Piece} (proper : piece.Proper) : ∃ byte tail, piece.spell = byte :: tail ∧ byte ≠ 0 := by
  cases piece with
  | literal byte => exact ⟨byte, [], rfl, proper.1⟩
  | hole body => exact ⟨123, _, rfl, by decide⟩

theorem printLoop_turn {byte : BitVec 8} {more : List (BitVec 8)} (nonzero : byte ≠ 0)
    (bounded : (front ++ byte :: more).length ≤ bound) {fuel current : Nat} {text : List (BitVec 8)}
    {after : FmtScanner × Nat}
    (turn : Prints bound (printTurn stack args (Standing front (byte :: more) rest) current) text after)
    {others : List (BitVec 8)} (ahead : Prints bound (printLoop stack args fuel after.1 after.2) others ()) :
    Prints bound (printLoop stack args (fuel + 1) (Standing front (byte :: more) rest) current)
      (text ++ others) () := by
  rw [printLoop]
  refine (current_char bounded).bind ?_
  rw [if_neg nonzero]
  exact turn.bind ahead

theorem only_turn {byte : BitVec 8} {more : List (BitVec 8)} (nonzero : byte ≠ 0)
    (bounded : (front ++ byte :: more).length ≤ bound)
    {fuel current : Nat} (only : Traced.Only (InFormat bound)
      (printLoop stack args (fuel + 1) (Standing front (byte :: more) rest) current)) :
    Traced.Only (InFormat bound) (printTurn stack args (Standing front (byte :: more) rest) current) ∧
      ∀ after, (printTurn stack args (Standing front (byte :: more) rest) current).outcome = .ok after →
        Traced.Only (InFormat bound) (printLoop stack args fuel after.1 after.2) := by
  have here : Prints bound (fmtScannerCurrent (Standing front (byte :: more) rest)) [] byte := current_char bounded
  rw [printLoop] at only
  have afterChar := (Traced.only_bind.mp only).2 _ here.outcome
  rw [if_neg nonzero] at afterChar
  exact Traced.only_bind.mp afterChar

/-- The loop over a format whose placeholders are closed. -/
theorem printLoop_pieces (proper : ∀ piece ∈ pieces, piece.Proper)
    (bounded : (front ++ spell pieces).length ≤ bound) {fuel : Nat} (enough : pieces.length < fuel) (hole : Nat) :
    Prints bound (printLoop stack args fuel (Standing front (spell pieces) rest) (min hole args.length))
      (render stack args hole pieces) () := by
  obtain ⟨fuel, rfl⟩ : ∃ turns, fuel = turns + 1 := ⟨fuel - 1, by omega⟩
  induction pieces generalizing front fuel hole with
  | nil =>
    rw [printLoop]
    refine current_end.bind ?_
    rw [if_pos rfl]
    exact Prints.pure ()
  | cons piece pieces ih =>
    have shape : spell (piece :: pieces) = piece.spell ++ spell pieces := by rw [spell, List.flatMap_cons]; rfl
    rw [shape] at bounded ⊢
    obtain ⟨hole', turn, rest'⟩ := @piece_turn bound stack args front rest piece (proper piece List.mem_cons_self)
      (spell pieces) bounded hole
    obtain ⟨byte, tail, first, nonzero⟩ := piece_first (proper piece List.mem_cons_self)
    obtain ⟨fuel, rfl⟩ : ∃ turns, fuel = turns + 1 := ⟨fuel - 1, by simp at enough; omega⟩
    have bounded' : (front ++ piece.spell ++ spell pieces).length ≤ bound := by rwa [List.append_assoc]
    have ahead := ih (fun other member => proper other (List.mem_cons_of_mem _ member)) bounded' hole' fuel
      (by simpa using enough)
    rw [rest']
    rw [first, List.cons_append] at bounded
    rw [first, List.cons_append] at turn ⊢
    exact printLoop_turn nonzero bounded turn (by rw [← first]; exact ahead)

/-- A loop that stays inside comes to no placeholder that stays open. -/
theorem printLoop_open {body : List (BitVec 8)} (clean : 0 ∉ body) (inner : 125 ∉ body)
    (proper : ∀ piece ∈ pieces, piece.Proper) {fuel : Nat} (enough : pieces.length < fuel) (hole : Nat) :
    ¬ Traced.Only (InFormat (front ++ (spell pieces ++ 123 :: body)).length)
      (printLoop stack args fuel (Standing front (spell pieces ++ 123 :: body) rest) (min hole args.length)) := by
  obtain ⟨fuel, rfl⟩ : ∃ turns, fuel = turns + 1 := ⟨fuel - 1, by omega⟩
  induction pieces generalizing front fuel hole with
  | nil => exact fun only => open_turn clean inner _ (only_turn (by decide) (Nat.le_refl _) only).1
  | cons piece pieces ih =>
    intro only
    have bounded := Nat.le_refl (front ++ (spell (piece :: pieces) ++ 123 :: body)).length
    rw [spell_cons] at bounded only
    obtain ⟨hole', turn, -⟩ :=
      @piece_turn _ stack args front rest piece (proper piece List.mem_cons_self) _ bounded hole
    obtain ⟨byte, tail, first, nonzero⟩ := piece_first (proper piece List.mem_cons_self)
    obtain ⟨fuel, rfl⟩ : ∃ turns, fuel = turns + 1 := ⟨fuel - 1, by simp at enough; omega⟩
    have ahead := @ih (front ++ piece.spell)
      (fun other member => proper other (List.mem_cons_of_mem _ member)) hole' fuel (by simpa using enough)
    rw [List.append_assoc] at ahead
    rw [first, List.cons_append] at turn only
    refine ahead ?_
    rw [first]
    exact (only_turn nonzero (Nat.le_refl _) only).2 _ turn.outcome

end Runs

/-- Each opening brace is followed by a closing one. -/
def Closed (format : List (BitVec 8)) : Prop := ∀ front behind, format = front ++ 123 :: behind → 125 ∈ behind

/-- A format is a row of pieces, up to a placeholder that is never closed. -/
theorem format_pieces {format : List (BitVec 8)} (clean : 0 ∉ format) :
    ∃ pieces : List Piece, (∀ piece ∈ pieces, piece.Proper) ∧
      (spell pieces = format ∨ ∃ body, format = spell pieces ++ 123 :: body ∧ 125 ∉ body) := by
  induction measured : format.length using Nat.strong_induction_on generalizing format with
  | h size ih =>
    cases format with
    | nil => exact ⟨[], by simp, .inl rfl⟩
    | cons first others =>
      have longer {piece : Piece} {more : List (BitVec 8)} (proper : piece.Proper)
        (split : first :: others = piece.spell ++ more) :
          ∃ pieces : List Piece, (∀ piece ∈ pieces, piece.Proper) ∧ (spell pieces = first :: others ∨
            ∃ body, first :: others = spell pieces ++ 123 :: body ∧ 125 ∉ body) := by
        have long : 0 < piece.spell.length := by cases piece <;> simp [Piece.spell]
        have lengths := congrArg List.length split
        rw [List.length_append] at lengths
        obtain ⟨pieces, propers, shape⟩ := ih more.length (by omega)
          (fun member => clean (by rw [split]; exact List.mem_append_right _ member)) rfl
        refine ⟨piece :: pieces, List.forall_mem_cons.mpr ⟨proper, propers⟩, ?_⟩
        rcases shape with whole | ⟨body, whole, inner⟩
        · have all := spell_cons piece pieces []
          rw [List.append_nil, List.append_nil] at all
          exact .inl (by rw [all, whole, split])
        · exact .inr ⟨body, by rw [split, spell_cons, whole], inner⟩
      by_cases brace : first = 123
      · by_cases closes : 125 ∈ others
        · obtain ⟨body, more, split, inner⟩ := List.eq_append_cons_of_mem closes
          have cleanBody : 0 ∉ body :=
            fun member => clean (by rw [split]; exact List.mem_cons_of_mem _ (List.mem_append_left _ member))
          refine @longer (.hole body) more ⟨cleanBody, inner⟩ ?_
          rw [brace, split, Piece.spell]
          simp
        · exact ⟨[], by simp, .inr ⟨others, by rw [brace]; rfl, closes⟩⟩
      · exact @longer (.literal first) others ⟨fun zero => clean (zero ▸ List.mem_cons_self), brace⟩ rfl

theorem closed_spells {format : List (BitVec 8)} (clean : 0 ∉ format) (closed : Closed format) :
    ∃ pieces : List Piece, (∀ piece ∈ pieces, piece.Proper) ∧ spell pieces = format := by
  obtain ⟨pieces, proper, whole | ⟨body, split, inner⟩⟩ := format_pieces clean
  · exact ⟨pieces, proper, whole⟩
  · exact absurd (closed _ _ split) inner

/-- A row of pieces closes all its braces. -/
theorem spell_closed {pieces : List Piece} (proper : ∀ piece ∈ pieces, piece.Proper) : Closed (spell pieces) := by
  induction pieces with
  | nil => exact fun front behind split => absurd split (by simp [spell])
  | cons piece pieces ih =>
    intro front behind split
    have own := proper piece List.mem_cons_self
    rw [spell, List.flatMap_cons] at split
    rcases List.append_eq_append_iff.mp split with ⟨more, -, later⟩ | ⟨inside, here, rest⟩
    · exact ih (fun other member => proper other (List.mem_cons_of_mem _ member)) more behind later
    · cases inside with
      | nil => exact ih (fun other member => proper other (List.mem_cons_of_mem _ member)) [] behind rest.symm
      | cons brace inside =>
        obtain ⟨rfl, rfl⟩ := List.cons.inj rest
        apply List.mem_append_left
        cases piece with
        | literal byte =>
          -- a literal is not the brace
          have single : byte = 123 := by
            cases front with
            | nil => exact (List.cons.inj here).1
            | cons first front => simp [Piece.spell] at here
          exact absurd single own.2
        | hole body =>
          have last := congrArg List.getLast? here
          rw [Piece.spell, ← List.cons_append, List.getLast?_concat, List.getLast?_append_of_ne_nil _ (by simp)] at last
          cases inside with
          | nil => exact absurd (Option.some.inj last) (by decide)
          | cons next inside =>
            rw [List.getLast?_cons_cons] at last
            exact List.mem_of_getLast? last.symm

/-- What a whole call prints for the pieces of its format. -/
theorem printFormat_pieces (stack : Nat → BitVec 8) (args : List FmtValue) {pieces : List Piece}
    {format rest : List (BitVec 8)} (clean : 0 ∉ format) (proper : ∀ piece ∈ pieces, piece.Proper)
    (spelled : spell pieces = format) :
    Prints format.length (printFormat stack (format ++ 0 :: rest) args) (render stack args 0 pieces) () := by
  have few := length_pieces pieces
  rw [spelled] at few
  have all := @printLoop_pieces format.length stack args [] rest pieces proper (by rw [spelled]; exact Nat.le_refl _)
    (format.length + 1) (by omega) 0
  rw [spelled, Nat.zero_min] at all
  exact (Prints.silent (strlen_text clean)).bind all

/-- Formatting follows its grammar: every format whose braces are closed is a row of
pieces, and the pieces are printed one after the other, the placeholder of each
number with the argument of that number. -/
theorem printFormat_follows (stack : Nat → BitVec 8) (format : Text) (rest : List (BitVec 8)) (args : List FmtValue)
    (closed : Closed format.bytes) :
    (∃ pieces : List Piece, (∀ piece ∈ pieces, piece.Proper) ∧ spell pieces = format.bytes) ∧
      ∀ pieces : List Piece, (∀ piece ∈ pieces, piece.Proper) → spell pieces = format.bytes →
        (printFormat stack (format.bytes ++ 0 :: rest) args).outcome = .ok () ∧
          printed (printFormat stack (format.bytes ++ 0 :: rest) args) = render stack args 0 pieces := by
  refine ⟨closed_spells format.clean closed, fun pieces proper spelled => ?_⟩
  have all := @printFormat_pieces stack args pieces format.bytes rest format.clean proper spelled
  exact ⟨all.outcome, all.text⟩

theorem printFormat_follows_one :
    (∃ pieces : List Piece, (∀ piece ∈ pieces, piece.Proper) ∧ spell pieces = [123, 120, 125]) ∧
    ∀ pieces : List Piece, (∀ piece ∈ pieces, piece.Proper) → spell pieces = [123, 120, 125] →
      (printFormat (fun _ => 0) ([123, 120, 125] ++ 0 :: []) [.decimal 255]).outcome = .ok () ∧
        printed (printFormat (fun _ => 0) ([123, 120, 125] ++ 0 :: []) [.decimal 255]) = render (fun _ => 0)
          [.decimal 255] 0 pieces := by
  apply printFormat_follows (fun _ => 0) ⟨[123, 120, 125], by decide⟩ [] [.decimal 255]
  intro front behind split
  cases front with
  | nil =>
    obtain ⟨-, rfl⟩ := List.cons.inj split
    decide
  | cons first front =>
    have member : (123 : BitVec 8) ∈ [120, 125] := by
      rw [(List.cons.inj split).2]
      simp
    exact absurd member (by decide)

/-- The call comes to its end, and reads nothing of the format behind its terminator. -/
def StaysInside (stack : Nat → BitVec 8) (format : Text) (rest : List (BitVec 8)) (args : List FmtValue) : Prop :=
  (printFormat stack (format.bytes ++ 0 :: rest) args).outcome = .ok () ∧
    Traced.Only (InFormat format.bytes.length) (printFormat stack (format.bytes ++ 0 :: rest) args)

/-- The scanner stays inside just of formats whose braces are closed. -/
theorem printFormat_inside_iff (stack : Nat → BitVec 8) (format : Text) (rest : List (BitVec 8))
    (args : List FmtValue) : StaysInside stack format rest args ↔ Closed format.bytes := by
  obtain ⟨pieces, proper, shape⟩ := format_pieces format.clean
  constructor
  · intro inside
    rcases shape with whole | ⟨body, split, inner⟩
    · -- a row of pieces closes all its braces
      rw [← whole]
      exact spell_closed proper
    · have clean : 0 ∉ body :=
        fun member => format.clean (by rw [split]; exact List.mem_append_right _ (List.mem_cons_of_mem _ member))
      have few := length_pieces pieces
      have long : pieces.length < format.bytes.length + 1 := by
        rw [split, List.length_append]
        omega
      have only := (Traced.only_bind.mp inside.2).2 _ (strlen_text format.clean)
      have never := @printLoop_open stack args [] rest pieces body clean inner proper (format.bytes.length + 1) long 0
      rw [← split, Nat.zero_min, List.nil_append] at never
      exact absurd only never
  · intro closed
    obtain ⟨pieces, proper, whole⟩ := closed_spells format.clean closed
    have all := @printFormat_pieces stack args pieces format.bytes rest format.clean proper whole
    exact ⟨all.outcome, all.reads⟩

/-- In `"{"` the scanner goes on to the byte behind the terminator. -/
theorem printFormat_leaves : ¬ ∀ (stack : Nat → BitVec 8) (format : Text) (rest : List (BitVec 8))
    (args : List FmtValue), StaysInside stack format rest args := by
  intro inside
  have read := (inside (fun _ => 0) ⟨[123], by decide⟩ [0] []).2 (.read 2) (by decide)
  exact absurd read (by simp [InFormat])

end Navy
