import Navy.Symbols
import Navy.Proofs.Numbers

/-! What the parser makes of a symbol file: the fields of a line, what the line does
to the buffer, and the lines in turn. -/

namespace Navy
open Outcome

/-- The fields of a line as they are read, with the name if there is one. -/
structure SymbolFields where
  addr : List (BitVec 8)
  length : List (BitVec 8)
  name : Option (List (BitVec 8))

/-- The fields of a line; of an entry without a length the second is the type. -/
def symbolFields (text : List (BitVec 8)) : Option SymbolFields := do
  let addr ← Words.cut (delimiter [32]) text
  let length ← Words.cut (delimiter [32]) addr.2
  if length.1.headD 0 = 84 ∨ length.1.headD 0 = 116 then
    some ⟨addr.1, [48], Words.nth (delimiter [32]) 0 length.2⟩
  else some ⟨addr.1, length.1, Words.nth (delimiter [32]) 1 length.2⟩

def SymbolFields.Match (fields : SymbolFields) (ptr : BitVec 64) : Bool :=
  symbolMatches (fields.addr.foldl hexStep 0) (fields.length.foldl hexStep 0) ptr

/-- A name put over the front of a buffer. -/
def overlay (buffer name : List (BitVec 8)) : List (BitVec 8) := name ++ buffer.drop name.length

def putName (buffer : List (BitVec 8)) : Option (List (BitVec 8)) → Checked (List (BitVec 8))
  | none => .ok buffer
  | some name => if name.length ≤ buffer.length then .ok (overlay buffer name) else .error .outOfBounds

def SymbolFields.effect (fields : SymbolFields) (ptr : BitVec 64) (buffer : List (BitVec 8)) :
    Checked (List (BitVec 8)) :=
  if fields.Match ptr then putName buffer fields.name else .ok buffer

/-- What a line does to the buffer. -/
def lineEffect (ptr : BitVec 64) (text buffer : List (BitVec 8)) : Checked (List (BitVec 8)) :=
  match symbolFields text with
  | none => .error .outOfBounds
  | some fields => fields.effect ptr buffer

variable {text rest word front left front' left' buffer : List (BitVec 8)} {place : Nat}

section Tokens

theorem symbolFields_letter {addr length left left' : List (BitVec 8)}
    (first : Words.cut (delimiter [32]) text = some (addr, left))
    (second : Words.cut (delimiter [32]) left = some (length, left'))
    (letter : length.headD 0 = 84 ∨ length.headD 0 = 116) :
    symbolFields text = some ⟨addr, [48], Words.nth (delimiter [32]) 0 left'⟩ := by
  unfold symbolFields
  rw [first, Option.bind_eq_bind, Option.bind_some, second, Option.bind_some, if_pos letter]

theorem symbolFields_length {addr length left left' : List (BitVec 8)}
    (first : Words.cut (delimiter [32]) text = some (addr, left))
    (second : Words.cut (delimiter [32]) left = some (length, left'))
    (digit : ¬ (length.headD 0 = 84 ∨ length.headD 0 = 116)) :
    symbolFields text = some ⟨addr, length, Words.nth (delimiter [32]) 1 left'⟩ := by
  unfold symbolFields
  rw [first, Option.bind_eq_bind, Option.bind_some, second, Option.bind_some, if_neg digit]

theorem pointed_held (held : Held place word front left) (rest : List (BitVec 8)) :
    ∃ after, pointed (Pending front left rest).object (some place) = .ok (word ++ 0 :: after) := by
  obtain ⟨after, dropped⟩ := held.drop rest
  exact ⟨after, congrArg Except.ok dropped⟩

theorem copyName_handed {ret : Option Nat} (handed : Handed [32] front text ret front' left')
    (rest buffer : List (BitVec 8)) :
    copyName buffer (Pending front' left' rest).object ret = putName buffer (Words.nth (delimiter [32]) 0 text) := by
  rcases handed.result with ⟨empty, rfl, -⟩ | ⟨place, word, cut, rfl, held⟩
  · rw [Words.nth, empty]
    rfl
  · obtain ⟨after, dropped⟩ := held.drop rest
    rw [Words.nth, cut, copyName, dropped, copyString_front held.1]
    rfl

theorem nth_handed {type : Option Nat} (handed : Handed [32] front text type front' left') :
    Words.nth (delimiter [32]) 0 left' = Words.nth (delimiter [32]) 1 text := by
  rcases handed.result with ⟨empty, -, rfl⟩ | ⟨place, word, cut, -, -⟩
  · rw [Words.nth, Words.nth, empty]
    rfl
  · rw [Words.nth, Words.nth, cut]
    rfl

end Tokens

/-- What follows once the fields are found. -/
theorem symbolLine_effect {fields : SymbolFields} {object after after' : List (BitVec 8)}
    {addr function : Option Nat} {lengthText : Checked (List (BitVec 8))} (ptr : BitVec 64)
    (clean : 0 ∉ fields.addr) (clean' : 0 ∉ fields.length)
    (first : pointed object addr = .ok (fields.addr ++ 0 :: after))
    (second : lengthText = .ok (fields.length ++ 0 :: after'))
    (name : copyName buffer object function = putName buffer fields.name) (next : List (BitVec 8) → SymbolScan) :
    (do
      let addrText ← pointed object addr
      let lengthText ← lengthText
      let address ← hex2int addrText
      let size ← hex2int lengthText
      let buffer ← (if symbolMatches address size ptr then copyName buffer object function else .ok buffer)
      return next buffer) = (fields.effect ptr buffer).map next := by
  rw [first, ok_bind, second, ok_bind, hex2int, hex2intFrom_text clean, ok_bind, hex2int, hex2intFrom_text clean',
    ok_bind, name]
  unfold SymbolFields.effect SymbolFields.Match
  generalize (if symbolMatches _ _ ptr then putName buffer fields.name else .ok buffer) = outcome
  cases outcome <;> rfl

theorem drop_pending {more zeros : List (BitVec 8)} (whole : front.length + left.length = text.length) :
    (Pending front left (more ++ zeros)).object.drop (text.length + more.length + 1) = zeros := by
  have split : (Pending front left (more ++ zeros)).object = front ++ left ++ 0 :: more ++ zeros := by simp [Pending]
  have length : (front ++ left ++ 0 :: more).length = text.length + more.length + 1 := by
    rw [List.length_append, List.length_append, List.length_cons, whole]
    omega
  rw [split, ← length, List.drop_left]

theorem strtok_pending (clean : 0 ∉ text) (front rest : List (BitVec 8)) :
    ∃ ret front' left, strtok (Pending front text rest) none [32, 0] = .ok (ret, Pending front' left rest) ∧
      Handed [32] front text ret front' left :=
  @strtok_handed front text rest [32] (by decide) clean (some front.length) none rfl

/-- A complete line does to the buffer what its text says, and leaves the line empty. -/
theorem symbolLine_text {more zeros : List (BitVec 8)} (ptr : BitVec 64) (clean : 0 ∉ text) {scan : SymbolScan}
    (ended : setByte scan.line (scan.offset - 1) 0 = .ok (text ++ 0 :: (more ++ zeros)))
    (offset : scan.offset = text.length + more.length + 1) :
    ∃ p, symbolLine ptr scan =
      (lineEffect ptr text scan.buffer).map fun buffer => ⟨List.replicate scan.offset 0 ++ zeros, 0, p, buffer⟩ := by
  obtain ⟨addr, front1, left1, call1, handed1⟩ :=
    @strtok_handed [] text (more ++ zeros) [32] (by decide) clean scan.p (some 0) rfl
  obtain ⟨length, front2, left2, call2, handed2⟩ := strtok_pending handed1.clean front1 (more ++ zeros)
  have whole1 : front1.length + left1.length = text.length := handed1.length.trans (Nat.zero_add _)
  have whole2 := handed2.length.trans whole1
  have started : strtok ⟨text ++ 0 :: (more ++ zeros), scan.p⟩ (some 0) [32, 0] =
    .ok (addr, Pending front1 left1 (more ++ zeros)) := call1
  unfold symbolLine
  rw [ended, ok_bind, started, ok_bind, call2, ok_bind]
  rcases handed1.result with ⟨empty, rfl, rfl⟩ | ⟨place1, word1, cut1, rfl, held1⟩
  · -- without a first field there is no second
    have none' : lineEffect ptr left1 scan.buffer = .error .outOfBounds := by
      unfold lineEffect symbolFields
      rw [empty]
      rfl
    rcases handed2.result with ⟨-, rfl, -⟩ | ⟨place2, word2, cut2, -⟩
    · rw [none']
      exact ⟨none, rfl⟩
    · rw [empty] at cut2
      cases cut2
  · rcases handed2.result with ⟨empty, rfl, rfl⟩ | ⟨place2, word2, cut2, rfl, held2⟩
    · have none' : lineEffect ptr text scan.buffer = .error .outOfBounds := by
        unfold lineEffect symbolFields
        rw [cut1, Option.bind_eq_bind, Option.bind_some, empty]
        rfl
      rw [none']
      exact ⟨none, rfl⟩
    · obtain ⟨after, field⟩ := pointed_held held2 (more ++ zeros)
      have first : byteAt (word2 ++ 0 :: after) 0 = .ok (word2.headD 0) := by cases word2 <;> rfl
      have held1' := handed2.kept _ _ held1
      rw [field, ok_bind, first, ok_bind]
      unfold lineEffect
      by_cases letter : word2.headD 0 = 84 ∨ word2.headD 0 = 116
      · obtain ⟨function, front3, left3, call3, handed3⟩ := strtok_pending handed2.clean front2 (more ++ zeros)
        obtain ⟨after1, field1⟩ := pointed_held (handed3.kept _ _ held1') (more ++ zeros)
        have zero : (0 : BitVec 8) ∉ ([48] : List (BitVec 8)) := by decide
        have dropped := @drop_pending text front3 left3 more zeros (handed3.length.trans whole2)
        rw [symbolFields_letter cut1 cut2 letter, if_pos letter, ok_bind, call3, ok_bind, if_pos letter,
          offset, dropped]
        exact ⟨some front3.length, @symbolLine_effect scan.buffer ⟨word1, [48],
          _⟩ _ after1 [] _ _ _ ptr held1.1 zero field1 rfl
          (copyName_handed handed3 (more ++ zeros) scan.buffer) _⟩
      · obtain ⟨type, front3, left3, call3, handed3⟩ := strtok_pending handed2.clean front2 (more ++ zeros)
        obtain ⟨function, front4, left4, call4, handed4⟩ := strtok_pending handed3.clean front3 (more ++ zeros)
        obtain ⟨after1, field1⟩ := pointed_held (handed4.kept _ _ (handed3.kept _ _ held1')) (more ++ zeros)
        obtain ⟨after2, field2⟩ := pointed_held (handed4.kept _ _ (handed3.kept _ _ held2)) (more ++ zeros)
        have dropped := @drop_pending text front4 left4 more zeros (handed4.length.trans (handed3.length.trans whole2))
        have name := copyName_handed handed4 (more ++ zeros) scan.buffer
        rw [nth_handed handed3] at name
        rw [symbolFields_length cut1 cut2 letter, if_neg letter, call3, ok_bind, call4, ok_bind, if_neg letter,
          offset, dropped]
        exact ⟨some front4.length, @symbolLine_effect scan.buffer ⟨word1, word2,
          _⟩ _ after1 after2 _ _ _ ptr held1.1 held2.1 field1
          field2 name _⟩

section Lines

/-- The scan with the bytes of a line that came so far. -/
def Gathered (line : List (BitVec 8)) (p : Option Nat) (buffer : List (BitVec 8)) : SymbolScan :=
  ⟨line ++ List.replicate (symbolLineSize - line.length) 0, line.length, p, buffer⟩

variable {line : List (BitVec 8)} {p : Option Nat} {byte : BitVec 8} (ptr : BitVec 64)

theorem storeChar_gathered (byte : BitVec 8) :
    storeChar byte (Gathered line p buffer) =
      if line.length < symbolLineSize then .ok (Gathered (line ++ [byte]) p buffer) else .error .outOfBounds := by
  unfold storeChar Gathered
  dsimp only
  split
  next room =>
    obtain ⟨more, left⟩ : ∃ more, symbolLineSize - line.length = more + 1 :=
      ⟨symbolLineSize - line.length - 1, by omega⟩
    have left' : symbolLineSize - (line ++ [byte]).length = more := by
      rw [List.length_append, List.length_singleton]
      omega
    rw [left, left', List.replicate_succ, setByte_front, ok_bind, List.append_assoc, List.length_append]
    rfl
  next full =>
    have whole : (line ++ List.replicate (symbolLineSize - line.length) (0 : BitVec 8)).length = line.length := by
      rw [List.length_append, List.length_replicate]
      omega
    rw [setByte, if_neg (by rw [whole]; exact Nat.lt_irrefl _)]
    rfl

/-- A byte is stored unless the line is complete. -/
theorem findSymbolsStep_gathered (going : line.getLast? ≠ some 10) (byte : BitVec 8) :
    findSymbolsStep ptr (Gathered line p buffer) byte =
      if line.length < symbolLineSize then .ok (Gathered (line ++ [byte]) p buffer) else .error .outOfBounds := by
  rw [← storeChar_gathered]
  unfold findSymbolsStep
  rcases List.eq_nil_or_concat line with rfl | ⟨front, last, rfl⟩
  · rfl
  · rw [List.concat_eq_append] at going ⊢
    rw [List.getLast?_concat] at going
    have other : last ≠ 10 := fun newline => going (congrArg some newline)
    have here : byteAt (Gathered (front ++ [last]) p buffer).line
      ((Gathered (front ++ [last]) p buffer).offset - 1) = .ok last := by
      have shape : (Gathered (front ++ [last]) p buffer).line =
          front ++ last :: List.replicate (symbolLineSize - (front ++ [last]).length) 0 := by simp [Gathered]
      have place : (Gathered (front ++ [last]) p buffer).offset - 1 = front.length := by simp [Gathered]
      rw [shape, place, byteAt_front]
    rw [if_neg (by simp [Gathered]), here, ok_bind, if_pos other]

/-- The byte behind a newline has the line read. -/
theorem findSymbolsStep_line (short : line.length < symbolLineSize) (byte : BitVec 8) :
    ∃ p', findSymbolsStep ptr (Gathered (line ++ [10]) p buffer) byte =
      (lineEffect ptr (textOf (line ++ [0])) buffer).map (Gathered [] p') := by
  obtain ⟨more, split⟩ := textOf_split (show 0 ∈ line ++ [0] by simp)
  have length := congrArg List.length split
  rw [List.length_append, List.length_append, List.length_singleton, List.length_cons] at length
  let scan := Gathered (line ++ [10]) p buffer
  let zeros : List (BitVec 8) := List.replicate (symbolLineSize - (line ++ [10]).length) 0
  have shape : scan.line = line ++ 10 :: zeros := by simp [scan, zeros, Gathered]
  have place : scan.offset - 1 = line.length := by simp [scan, Gathered]
  have here : byteAt scan.line (scan.offset - 1) = .ok 10 := by rw [shape, place, byteAt_front]
  have ended : setByte scan.line (scan.offset - 1) 0 = .ok (textOf (line ++ [0]) ++ 0 :: (more ++ zeros)) := by
    rw [shape, place, setByte_front, ← List.cons_append, ← List.append_assoc, ← split, List.append_assoc]
    rfl
  have offset : scan.offset = (textOf (line ++ [0])).length + more.length + 1 := by
    rw [show scan.offset = line.length + 1 from List.length_append]
    omega
  obtain ⟨p', read⟩ := symbolLine_text ptr (textOf_clean _) ended offset
  refine ⟨p', ?_⟩
  have cleared : List.replicate scan.offset 0 ++ zeros = List.replicate symbolLineSize 0 := by
    have size : scan.offset + (symbolLineSize - (line ++ [10]).length) = symbolLineSize := by
      rw [show scan.offset = line.length + 1 from List.length_append, List.length_append, List.length_singleton]
      omega
    rw [List.replicate_append_replicate, size]
  have started : scan.offset ≠ 0 := by
    rw [offset]
    exact Nat.succ_ne_zero _
  unfold findSymbolsStep
  rw [if_neg started, here, ok_bind, if_neg (not_not.mpr rfl), read, cleared]
  rfl

/-- Bytes that come before a line is complete are stored as long as there is room. -/
theorem gathered_run {bytes : List (BitVec 8)} (room : line.length ≤ symbolLineSize)
    (going : 10 ∉ (line ++ bytes).dropLast) :
    bytes.foldlM (findSymbolsStep ptr) (Gathered line p buffer) =
      if (line ++ bytes).length ≤ symbolLineSize then .ok (Gathered (line ++ bytes) p buffer)
        else .error .outOfBounds := by
  induction bytes generalizing line with
  | nil =>
    rw [List.append_nil, if_pos room]
    rfl
  | cons byte bytes ih =>
    have others : (line ++ byte :: bytes).dropLast = line ++ (byte :: bytes).dropLast :=
      List.dropLast_append_of_ne_nil (by simp)
    have stored : line.getLast? ≠ some 10 := fun last =>
      going (by rw [others]; exact List.mem_append_left _ (List.mem_of_getLast? last))
    have shape : line ++ byte :: bytes = line ++ [byte] ++ bytes := by simp
    rw [List.foldlM_cons, findSymbolsStep_gathered ptr stored]
    split
    next short =>
      rw [shape] at going ⊢
      exact ih (by rw [List.length_append, List.length_singleton]; omega) going
    next full =>
      rw [if_neg (by rw [List.length_append, List.length_cons]; omega)]
      rfl

theorem line_run (single : 10 ∉ line) (byte : BitVec 8) (rest : List (BitVec 8)) (p : Option Nat)
    (buffer : List (BitVec 8)) :
    ∃ p', (line ++ 10 :: byte :: rest).foldlM (findSymbolsStep ptr) (Gathered [] p buffer) =
      if line.length < symbolLineSize then
        lineEffect ptr (textOf (line ++ [0])) buffer >>= fun buffer => rest.foldlM (findSymbolsStep ptr)
          (Gathered [] p' buffer)
      else .error .outOfBounds := by
  have shape : line ++ 10 :: byte :: rest = line ++ [10] ++ byte :: rest := by simp
  have gathered := @gathered_run buffer [] p ptr (line ++ [10]) (Nat.zero_le _) (by
    rw [List.nil_append, List.dropLast_concat]
    exact single)
  rw [List.nil_append, List.length_append, List.length_singleton] at gathered
  rw [shape, List.foldlM_append, gathered]
  by_cases short : line.length < symbolLineSize
  · obtain ⟨p', read⟩ := @findSymbolsStep_line buffer line p ptr short byte
    refine ⟨p', ?_⟩
    rw [if_pos short, if_pos (Nat.succ_le_of_lt short), ok_bind, List.foldlM_cons, read]
    cases lineEffect ptr (textOf (line ++ [0])) buffer <;> rfl
  · refine ⟨none, ?_⟩
    rw [if_neg short, if_neg (by omega)]
    rfl

/-- A file read line by line: what the buffer holds in front of it and behind it. -/
inductive Reads : List (BitVec 8) → List (BitVec 8) → List (BitVec 8) → Prop
  | last {tail buffer : List (BitVec 8)} (going : 10 ∉ tail.dropLast) (short : tail.length ≤ symbolLineSize) :
  Reads tail buffer buffer
  | line {line rest before middle after : List (BitVec 8)} (byte : BitVec 8) (single : 10 ∉ line)
    (short : line.length < symbolLineSize)
      (read : lineEffect ptr (textOf (line ++ [0])) before = .ok middle) (others : Reads rest middle after) :
      Reads (line ++ 10 :: byte :: rest) before after

/-- A file is a beginning of a line, or starts with a line that has a byte behind it. -/
theorem first_line (symbols : List (BitVec 8)) :
    10 ∉ symbols.dropLast ∨ ∃ line byte rest, symbols = line ++ 10 :: byte :: rest ∧ 10 ∉ line := by
  by_cases newline : 10 ∈ symbols.dropLast
  · obtain ⟨line, middle, split, single⟩ := List.eq_append_cons_of_mem newline
    have some' : symbols ≠ [] := by
      intro empty
      rw [empty] at newline
      cases newline
    have whole := List.dropLast_concat_getLast some'
    rw [split, List.append_assoc, List.cons_append] at whole
    cases middle with
    | nil => exact .inr ⟨line, symbols.getLast some', [], whole.symm, single⟩
    | cons byte middle => exact .inr ⟨line, byte, middle ++ [symbols.getLast some'], whole.symm, single⟩
  · exact .inl newline

theorem findSymbols_reads (symbols : List (BitVec 8)) (p : Option Nat) (buffer after : List (BitVec 8)) :
    (∃ scan, findSymbols symbols p ptr buffer = .ok scan ∧ scan.buffer = after) ↔ Reads ptr symbols buffer after := by
  have started (p : Option Nat) (buffer : List (BitVec 8)) :
      (⟨List.replicate symbolLineSize 0, 0, p, buffer⟩ : SymbolScan) = Gathered [] p buffer := rfl
  unfold findSymbols
  rw [started]
  constructor
  · rintro ⟨scan, ran, rfl⟩
    induction measured : symbols.length using Nat.strong_induction_on generalizing symbols p buffer with
    | h size ih =>
      rcases first_line symbols with going | ⟨line, byte, rest, rfl, single⟩
      · rw [@gathered_run buffer [] p ptr symbols (Nat.zero_le _) going] at ran
        obtain ⟨short, ran⟩ := ite_ok ran
        cases ran
        exact .last going short
      · obtain ⟨p', run⟩ := line_run ptr single byte rest p buffer
        rw [run] at ran
        obtain ⟨short, ran⟩ := ite_ok ran
        obtain ⟨middle, read, others⟩ := bind_ok ran
        refine .line byte single short read (ih rest.length ?_ rest p' middle others rfl)
        rw [← measured, List.length_append, List.length_cons, List.length_cons]
        omega
  · intro reads
    induction reads generalizing p with
    | @last tail buffer going short =>
      rw [@gathered_run buffer [] p ptr tail (Nat.zero_le _) going, List.nil_append, if_pos short]
      exact ⟨_, rfl, rfl⟩
    | @line line rest before middle after byte single short read others ih =>
      obtain ⟨p', run⟩ := line_run ptr single byte rest p before
      rw [run, if_pos short, read, ok_bind]
      exact ih p'

end Lines

end Navy
