import Navy.Proofs.Symbols

/-! Symbol files as the build writes them, and which lookups in them find the symbol
that covers an address. -/

namespace Navy
open Outcome Numerals

/-- An entry of a symbol file. -/
structure SymbolEntry where
  addr : BitVec 64
  size : Option (BitVec 64)
  type : BitVec 8
  name : List (BitVec 8)
  kernel : 2 ^ 64 - 2 ^ 31 ≤ addr.toNat
  letter : type ∉ [0, 10, 32]
  named : name ≠ []
  plain : ∀ byte ∈ name, byte ∉ [0, 10, 32]
  short : name.length < 64

/-- All sixteen digits. -/
def hexField (value : BitVec 64) : List (BitVec 8) := (numeral 16 value.toNat).leftpad 16 48

/-- What follows the address in the line of an entry. -/
def SymbolEntry.fields (entry : SymbolEntry) : List (BitVec 8) :=
  match entry.size with
  | some size => hexField size ++ 32 :: entry.type :: 32 :: entry.name
  | none => entry.type :: 32 :: entry.name

def SymbolEntry.line (entry : SymbolEntry) : List (BitVec 8) := hexField entry.addr ++ 32 :: entry.fields

def symbolFile (entries : List SymbolEntry) : List (BitVec 8) := entries.flatMap fun entry => entry.line ++ [10]

/-- An entry covers its range, or its address if it is a function without a size. -/
def SymbolEntry.Covers (entry : SymbolEntry) (ptr : BitVec 64) : Prop :=
  match entry.size with
  | some size => entry.addr.toNat ≤ ptr.toNat ∧ ptr.toNat < entry.addr.toNat + size.toNat
  | none => (entry.type = 84 ∨ entry.type = 116) ∧ entry.addr = ptr

/-- The test of the code for an entry that has a name where the code looks for it. -/
def SymbolEntry.Reached (entry : SymbolEntry) (ptr : BitVec 64) : Bool :=
  (entry.size.isSome || entry.type = 84 || entry.type = 116) && symbolMatches entry.addr (entry.size.getD 0) ptr

section Fields

variable {value : BitVec 64}

theorem hexField_digits (value : BitVec 64) : ∃ (first : Nat) (digits : List Nat), hexField value =
    (first :: digits).map digit ∧
    (∀ code ∈ first :: digits, code < 16) ∧ digits.length = 15 ∧ first * 16 ^ 15 + Nat.ofDigits 16 digits.reverse =
      value.toNat := by
  obtain ⟨digits, spelled, below, number⟩ := numeral_spells (by decide : 1 < 16) value.toNat
  have fits : (numeral 16 value.toNat).length ≤ 16 := (length_numeral_le_iff (by decide) (by decide)).mpr value.isLt
  rw [spelled, List.length_map] at fits
  let padded := List.replicate (16 - digits.length) 0 ++ digits
  have shown : hexField value = padded.map digit := by
    rw [hexField, spelled, List.leftpad, List.length_map, List.map_append, List.map_replicate]
    rfl
  have whole : padded.length = 16 := by
    rw [List.length_append, List.length_replicate]
    omega
  have small : ∀ code ∈ padded, code < 16 := by
    intro code member
    rcases List.mem_append.mp member with zero | member
    · rw [List.eq_of_mem_replicate zero]
      decide
    · exact below code member
  have same : Nat.ofDigits 16 padded.reverse = value.toNat := by
    rw [List.reverse_append, List.reverse_replicate, Nat.ofDigits_append_replicate_zero, number]
  obtain ⟨first, others, cons⟩ := List.exists_cons_of_length_pos (by rw [whole]; decide : 0 < padded.length)
  rw [cons] at shown whole small same
  refine ⟨first, others, shown, small, Nat.succ.inj whole, ?_⟩
  rw [ofDigits_first, Nat.succ.inj whole] at same
  exact same

/-- A text of digits is one word. -/
structure Hexadecimal (text : List (BitVec 8)) : Prop where
  some' : text ≠ []
  digits : ∀ byte ∈ text, ∃ code < 16, byte = digit code

theorem hexadecimal_field (value : BitVec 64) : Hexadecimal (hexField value) := by
  obtain ⟨first, digits, spelled, below, -⟩ := hexField_digits value
  rw [spelled]
  refine ⟨by simp, ?_⟩
  intro byte member
  obtain ⟨code, inside, rfl⟩ := List.mem_map.mp member
  exact ⟨code, below code inside, rfl⟩

theorem hexadecimal_tail (value : BitVec 64) : Hexadecimal (hexField value).tail := by
  obtain ⟨first, digits, spelled, below, length, -⟩ := hexField_digits value
  rw [spelled, List.map_cons, List.tail_cons]
  constructor
  · intro empty
    rw [List.map_eq_nil_iff.mp empty] at length
    cases length
  · intro byte member
    obtain ⟨code, inside, rfl⟩ := List.mem_map.mp member
    exact ⟨code, below code (List.mem_cons_of_mem _ inside), rfl⟩

theorem Hexadecimal.none_of {text : List (BitVec 8)} (hexadecimal : Hexadecimal text) {byte : BitVec 8}
    (other : ∀ code < 16, byte ≠ digit code) : byte ∉ text := by
  intro member
  obtain ⟨code, small, same⟩ := hexadecimal.digits byte member
  exact other code small same

theorem hexStep_field (value : BitVec 64) : (hexField value).foldl hexStep 0 = value := by
  obtain ⟨first, digits, spelled, below, length, number⟩ := hexField_digits value
  have read := hexStep_digits below 0
  rw [ofDigits_first, length, number, Nat.zero_mul, Nat.zero_add, BitVec.ofNat_toNat, BitVec.setWidth_eq] at read
  rw [spelled]
  exact read

/-- The first digit does not count in an `int`. -/
theorem hexStep_tail (value : BitVec 64) : ((hexField value).tail.foldl hexStep 0).setWidth 32 = value.setWidth 32 := by
  obtain ⟨first, digits, spelled, below, length, number⟩ := hexField_digits value
  have read := hexStep_digits (fun code member => below code (List.mem_cons_of_mem _ member)) 0
  rw [Nat.zero_mul, Nat.zero_add] at read
  have shown : (hexField value).tail.foldl hexStep 0 = BitVec.ofNat 64 (Nat.ofDigits 16 digits.reverse) := by
    rw [spelled, List.map_cons, List.tail_cons]
    exact read
  rw [shown]
  apply BitVec.eq_of_toNat_eq
  rw [BitVec.toNat_setWidth, BitVec.toNat_setWidth, BitVec.toNat_ofNat]
  omega

end Fields

section Entries

variable {text : List (BitVec 8)} (entry : SymbolEntry) (ptr : BitVec 64)

theorem delimiter_other {byte : BitVec 8} (other : byte ≠ 32) : delimiter [32] byte = false := by
  unfold delimiter
  rw [List.contains_eq_mem]
  exact decide_eq_false (mt List.mem_singleton.mp other)

theorem Hexadecimal.cut (hexadecimal : Hexadecimal text) (rest : List (BitVec 8)) :
    Words.cut (delimiter [32]) (text ++ 32 :: rest) = some (text, rest) := by
  have other : (32 : BitVec 8) ∉ text := hexadecimal.none_of (by decide)
  apply Words.cut_word hexadecimal.some' _ (by rfl)
  intro byte member
  exact delimiter_other fun same => other (same ▸ member)

theorem SymbolEntry.cut_type (rest : List (BitVec 8)) :
    Words.cut (delimiter [32]) (entry.type :: 32 :: rest) = some ([entry.type], rest) := by
  have other : delimiter [32] entry.type = false := delimiter_other fun same => entry.letter (by simp [same])
  exact @Words.cut_word _ (delimiter [32]) [entry.type] 32 (by simp) (by simpa using other) rfl rest

theorem SymbolEntry.cut_name : Words.cut (delimiter [32]) entry.name = some (entry.name, []) := by
  apply Words.cut_last entry.named
  intro byte member
  exact delimiter_other fun same => entry.plain byte member (by simp [same])

theorem symbolMatches_congr {addr addr' size : BitVec 64} (same : addr.setWidth 32 = addr'.setWidth 32) :
    symbolMatches addr size ptr = symbolMatches addr' size ptr := by
  unfold symbolMatches
  rw [same]

/-- The line of an entry puts the name of the entry into the buffer if it is reached. -/
theorem lineEffect_entry (hexadecimal : Hexadecimal text)
    (same : (text.foldl hexStep 0).setWidth 32 = entry.addr.setWidth 32) (buffer : List (BitVec 8)) :
    lineEffect ptr (text ++ 32 :: entry.fields) buffer =
      if entry.Reached ptr then putName buffer (some entry.name) else .ok buffer := by
  have first := hexadecimal.cut entry.fields
  unfold lineEffect SymbolEntry.Reached
  cases sized : entry.size with
  | some size =>
    have fields : entry.fields = hexField size ++ 32 :: entry.type :: 32 :: entry.name := by
      simp [SymbolEntry.fields, *]
    have second := (hexadecimal_field size).cut (entry.type :: 32 :: entry.name)
    have digit' : ¬ ((hexField size).headD 0 = 84 ∨ (hexField size).headD 0 = 116) := by
      obtain ⟨code, digits, spelled, below, -⟩ := hexField_digits size
      have small := below code List.mem_cons_self
      have codes : ∀ code < 16, ¬ (digit code = 84 ∨ digit code = 116) := by decide
      rw [spelled, List.map_cons, List.headD_cons]
      exact codes code small
    rw [← fields] at second
    have name : Words.nth (delimiter [32]) 1 (entry.type :: 32 :: entry.name) = some entry.name := by
      rw [Words.nth, entry.cut_type, Option.bind_some, Words.nth, entry.cut_name]
      rfl
    rw [symbolFields_length first second digit', name]
    simp only [SymbolFields.effect, SymbolFields.Match, hexStep_field, symbolMatches_congr ptr same]
    simp
  | none =>
    have fields : entry.fields = entry.type :: 32 :: entry.name := by simp [SymbolEntry.fields, *]
    have second := entry.cut_type entry.name
    rw [← fields] at second
    by_cases letter : entry.type = 84 ∨ entry.type = 116
    · have name : Words.nth (delimiter [32]) 0 entry.name = some entry.name := by
        rw [Words.nth, entry.cut_name]
        rfl
      have zero : ([48] : List (BitVec 8)).foldl hexStep 0 = 0 := by decide
      rw [symbolFields_letter first second letter, name]
      have tested : (decide (entry.type = 84) || decide (entry.type = 116)) = true := by
        rw [Bool.or_eq_true, decide_eq_true_iff, decide_eq_true_iff]
        exact letter
      rw [Option.isSome_none, Bool.false_or, tested, Bool.true_and, Option.getD_none]
      simp only [SymbolFields.effect, SymbolFields.Match, zero, symbolMatches_congr ptr same]
    · have none' : Words.nth (delimiter [32]) 1 entry.name = none := by
        rw [Words.nth, entry.cut_name]
        rfl
      rw [symbolFields_length first second letter, none']
      have tested : (decide (entry.type = 84) || decide (entry.type = 116)) = false := by
        rw [Bool.or_eq_false_iff, decide_eq_false_iff_not, decide_eq_false_iff_not]
        exact not_or.mp letter
      rw [Option.isSome_none, Bool.false_or, tested, Bool.false_and, if_neg Bool.false_ne_true]
      simp only [SymbolFields.effect, putName, ite_self]

theorem hexField_length (value : BitVec 64) : (hexField value).length = 16 := by
  obtain ⟨first, digits, spelled, -, length, -⟩ := hexField_digits value
  rw [spelled, List.length_map, List.length_cons, length]

theorem SymbolEntry.line_length (short : text.length ≤ 16) : (text ++ 32 :: entry.fields).length < symbolLineSize := by
  have name := entry.short
  unfold SymbolEntry.fields symbolLineSize
  cases entry.size with
  | some size =>
    simp only [List.length_append, List.length_cons, hexField_length]
    omega
  | none =>
    simp only [List.length_append, List.length_cons]
    omega

/-- Neither a terminator nor a newline is part of a line. -/
theorem SymbolEntry.not_mem_line (hexadecimal : Hexadecimal text) {byte : BitVec 8} (mark : byte = 0 ∨ byte = 10) :
    byte ∉ text ++ 32 :: entry.fields := by
  have digits (code : Nat) (small : code < 16) : byte ≠ digit code := by
    rcases mark with rfl | rfl
    · revert code
      decide
    · revert code
      decide
  have space : byte ≠ 32#8 := by rcases mark with rfl | rfl <;> decide
  have marked : byte ∈ ([0, 10, 32] : List (BitVec 8)) := by rcases mark with rfl | rfl <;> decide
  have type : byte ≠ entry.type := fun same => entry.letter (same ▸ marked)
  have name : byte ∉ entry.name := fun member => entry.plain byte member marked
  have fields : byte ∉ entry.fields := by
    unfold SymbolEntry.fields
    cases entry.size with
    | some size => simp [(hexadecimal_field size).none_of digits, space, type, name]
    | none => simp [space, type, name]
  simp [hexadecimal.none_of digits, space, fields]

end Entries

theorem signExtend_kernel {value : BitVec 64} (kernel : 2 ^ 64 - 2 ^ 31 ≤ value.toNat) :
    (value.setWidth 32).signExtend 64 = value := by
  have word := value.isLt
  have high : (value.setWidth 32).msb = true := by
    rw [BitVec.msb_eq_decide, decide_eq_true_iff, BitVec.toNat_setWidth]
    omega
  apply BitVec.eq_of_toNat_eq
  rw [BitVec.toNat_signExtend, high, if_pos rfl, BitVec.toNat_setWidth, BitVec.toNat_setWidth]
  omega

/-- The end of a range that does not wrap counts as part of it. -/
theorem SymbolEntry.reached_iff {entry : SymbolEntry} {size : BitVec 64} (sized : entry.size = some size)
    (fits : entry.addr.toNat + size.toNat < 2 ^ 64) (ptr : BitVec 64) :
    entry.Reached ptr ↔ entry.addr.toNat ≤ ptr.toNat ∧ ptr.toNat ≤ entry.addr.toNat + size.toNat := by
  have kernel := entry.kernel
  have sum : (entry.addr + size).toNat = entry.addr.toNat + size.toNat := by
    rw [BitVec.toNat_add, Nat.mod_eq_of_lt fits]
  have last : (entry.addr.setWidth 32 + size.setWidth 32).signExtend 64 = entry.addr + size := by
    rw [← BitVec.setWidth_add _ _ (by decide)]
    apply signExtend_kernel
    omega
  rw [SymbolEntry.Reached, sized, Option.isSome_some, Bool.true_or, Bool.true_or, Bool.true_and, Option.getD_some,
    symbolMatches, signExtend_kernel kernel, last, Bool.and_eq_true, decide_eq_true_iff, decide_eq_true_iff,
    BitVec.le_def, BitVec.le_def, sum]

section Files

variable (ptr : BitVec 64)

/-- The names that are copied, one over the other: the last line is not read. -/
def reachedNames (entries : List SymbolEntry) (ptr : BitVec 64) : List (List (BitVec 8)) :=
  (entries.dropLast.filter (·.Reached ptr)).map (·.name)

theorem overlay_length {buffer name : List (BitVec 8)} (fits : name.length ≤ buffer.length) :
    (overlay buffer name).length = buffer.length := by
  rw [overlay, List.length_append, List.length_drop]
  omega

theorem reachedNames_true {entry next : SymbolEntry} {entries : List SymbolEntry} (reached : entry.Reached ptr = true) :
    reachedNames (entry :: next :: entries) ptr = entry.name :: reachedNames (next :: entries) ptr := by
  simp [reachedNames, reached]

theorem reachedNames_false {entry next : SymbolEntry} {entries : List SymbolEntry}
    (reached : entry.Reached ptr = false) :
    reachedNames (entry :: next :: entries) ptr = reachedNames (next :: entries) ptr := by
  simp [reachedNames, reached]

/-- A file from its first line on, of which the first digit may be missing. -/
theorem reads_entries (entry : SymbolEntry) (entries : List SymbolEntry) {text buffer : List (BitVec 8)}
    (hexadecimal : Hexadecimal text) (same : (text.foldl hexStep 0).setWidth 32 = entry.addr.setWidth 32)
    (short : text.length ≤ 16) (room : buffer.length = 64) :
    Reads ptr (text ++ 32 :: entry.fields ++ 10 :: symbolFile entries) buffer
      ((reachedNames (entry :: entries) ptr).foldl overlay buffer) := by
  induction entries generalizing entry text buffer with
  | nil =>
    have whole : text ++ 32 :: entry.fields ++ 10 :: symbolFile [] = (text ++ 32 :: entry.fields) ++ [10] := rfl
    rw [whole]
    apply Reads.last
    · rw [List.dropLast_concat]
      exact entry.not_mem_line hexadecimal (.inr rfl)
    · rw [List.length_append, List.length_singleton]
      exact entry.line_length short
  | cons next entries ih =>
    obtain ⟨first, digits, spelled, -⟩ := hexField_digits next.addr
    have shape : symbolFile (next :: entries) =
        digit first :: ((hexField next.addr).tail ++ 32 :: next.fields ++ 10 :: symbolFile entries) := by
      rw [spelled, symbolFile, List.flatMap_cons, SymbolEntry.line, spelled]
      simp [symbolFile]
    have tail : (hexField next.addr).tail.length ≤ 16 := by
      rw [List.length_tail, hexField_length]
      decide
    have others {middle : List (BitVec 8)} (room : middle.length = 64) :=
      @ih next (hexField next.addr).tail middle (hexadecimal_tail _) (hexStep_tail _) tail room
    have read := lineEffect_entry entry ptr hexadecimal same buffer
    have single := entry.not_mem_line hexadecimal (.inr rfl)
    have text' : textOf (text ++ 32 :: entry.fields ++ [0]) = text ++ 32 :: entry.fields :=
      textOf_text (entry.not_mem_line hexadecimal (.inl rfl))
    rw [shape]
    cases reached : entry.Reached ptr with
    | true =>
      have fits : entry.name.length ≤ buffer.length := by
        have name := entry.short
        omega
      rw [if_pos reached, putName, if_pos fits, ← text'] at read
      rw [reachedNames_true ptr reached, List.foldl_cons]
      exact .line _ single (entry.line_length short) read (others ((overlay_length fits).trans room))
    | false =>
      rw [if_neg (by rw [reached]; exact Bool.false_ne_true), ← text'] at read
      rw [reachedNames_false ptr reached]
      exact .line _ single (entry.line_length short) read (others room)

theorem reads_file (entries : List SymbolEntry) {buffer : List (BitVec 8)} (room : buffer.length = 64) :
    Reads ptr (symbolFile entries) buffer ((reachedNames entries ptr).foldl overlay buffer) := by
  cases entries with
  | nil => exact .last (by simp [symbolFile]) (Nat.zero_le _)
  | cons entry entries =>
    have shape : symbolFile (entry :: entries) = hexField entry.addr ++ 32 :: entry.fields ++
      10 :: symbolFile entries := by
      simp [symbolFile, SymbolEntry.line]
    have same : ((hexField entry.addr).foldl hexStep 0).setWidth 32 = entry.addr.setWidth 32 := by rw [hexStep_field]
    rw [shape]
    exact reads_entries ptr entry entries (hexadecimal_field _) same (Nat.le_of_eq (hexField_length _)) room

end Files

section Names

variable {names : List (List (BitVec 8))} {name : List (BitVec 8)}

/-- At each place the last of the names that is long enough has the byte of `name`. -/
def Overlaid (names : List (List (BitVec 8))) (name : List (BitVec 8)) : Prop :=
  ∀ place : Nat, name[place]? = names.reverse.findSome? (·[place]?)

theorem getElem?_overlay (buffer name : List (BitVec 8)) (place : Nat) :
    (overlay buffer name)[place]? = name[place]?.or buffer[place]? := by
  unfold overlay
  by_cases inside : place < name.length
  · rw [List.getElem?_append_left inside, List.getElem?_eq_getElem inside]
    rfl
  · rw [List.getElem?_append_right (by omega), List.getElem?_drop, List.getElem?_eq_none
      (by omega : name.length ≤ place), show name.length + (place - name.length) = place by omega]
    rfl

theorem getElem?_overlays (names : List (List (BitVec 8))) (place : Nat) :
    (names.foldl overlay [])[place]? = names.reverse.findSome? (·[place]?) := by
  induction names using List.reverseRecOn with
  | nil => rfl
  | append_singleton names name ih =>
    rw [List.foldl_append, List.foldl_cons, List.foldl_nil, getElem?_overlay, ih, List.reverse_append,
      List.reverse_singleton, List.singleton_append, List.findSome?_cons]
    cases name[place]? <;> rfl

theorem overlaid_iff : Overlaid names name ↔ names.foldl overlay [] = name := by
  constructor
  · intro overlaid
    apply List.ext_getElem?
    intro place
    rw [getElem?_overlays, overlaid place]
  · rintro rfl place
    rw [getElem?_overlays]

/-- Behind the names the buffer stays as it was. -/
theorem overlays_zeros (short : ∀ name ∈ names, name.length < 64) (plain : ∀ name ∈ names, 0 ∉ name) :
    ∃ left, names.foldl overlay (List.replicate 64 0) = names.foldl overlay [] ++ List.replicate (left + 1) 0 ∧
      (names.foldl overlay []).length + (left + 1) = 64 ∧ 0 ∉ names.foldl overlay [] := by
  induction names using List.reverseRecOn with
  | nil => exact ⟨63, rfl, rfl, List.not_mem_nil⟩
  | append_singleton names name ih =>
    have fits := short name (by simp)
    have clean := plain name (by simp)
    obtain ⟨left, whole, length, clean'⟩ :=
      ih (fun name member => short name (by simp [member])) (fun name member => plain name (by simp [member]))
    simp only [List.foldl_append, List.foldl_cons, List.foldl_nil, whole]
    generalize names.foldl overlay [] = laid at length clean'
    obtain ⟨left', room⟩ : ∃ left', left + 1 - (name.length - laid.length) = left' + 1 :=
      ⟨left - (name.length - laid.length), by omega⟩
    refine ⟨left', ?_, ?_, ?_⟩
    · rw [overlay, overlay, List.drop_append, List.drop_replicate, room, List.append_assoc]
    · rw [overlay, List.length_append, List.length_drop]
      omega
    · rw [overlay, List.mem_append, not_or]
      exact ⟨clean, fun member => clean' (List.mem_of_mem_drop member)⟩

/-- Over names that are not empty something stands in the buffer. -/
theorem overlays_nil_iff (named : ∀ name ∈ names, name ≠ []) : names.foldl overlay [] = [] ↔ names = [] := by
  rcases List.eq_nil_or_concat names with rfl | ⟨front, name, rfl⟩
  · exact ⟨fun _ => rfl, fun _ => rfl⟩
  · rw [List.concat_eq_append, List.foldl_append, List.foldl_cons, List.foldl_nil, overlay, List.append_eq_nil_iff]
    constructor
    · intro empty
      exact absurd empty.1 (named name (by simp))
    · intro empty
      simp at empty

end Names

/-- A lookup leaves the name of an entry that covers the address, and nothing if
there is no such entry. -/
def Resolved (entries : List SymbolEntry) (p : Option Nat) (ptr : BitVec 64) : Prop :=
  ∃ scan, findSymbols (symbolFile entries) p ptr (List.replicate 64 0) = .ok scan ∧
    ((∃ entry ∈ entries, entry.Covers ptr) → ∃ entry ∈ entries, entry.Covers ptr ∧ ∃ rest, scan.buffer =
      entry.name ++ 0 :: rest) ∧
    ((¬ ∃ entry ∈ entries, entry.Covers ptr) → scan.buffer.head? = some 0)

/-- The names that are reached make up the name of an entry that covers the address,
and none is reached if there is no such entry. -/
structure Resolvable (entries : List SymbolEntry) (ptr : BitVec 64) : Prop where
  covered : (∃ entry ∈ entries, entry.Covers ptr) →
    ∃ entry ∈ entries, entry.Covers ptr ∧ Overlaid (reachedNames entries ptr) entry.name
  uncovered : (¬ ∃ entry ∈ entries, entry.Covers ptr) → reachedNames entries ptr = []

theorem mem_reachedNames {entries : List SymbolEntry} {ptr : BitVec 64} {name : List (BitVec 8)}
    (member : name ∈ reachedNames entries ptr) : ∃ entry : SymbolEntry, entry.name = name := by
  obtain ⟨entry, -, same⟩ := List.mem_map.mp member
  exact ⟨entry, same⟩

theorem SymbolEntry.name_clean (entry : SymbolEntry) : 0 ∉ entry.name := fun member => entry.plain 0 member (by decide)

theorem findSymbols_file (entries : List SymbolEntry) (p : Option Nat) (ptr : BitVec 64) :
    ∃ scan left, findSymbols (symbolFile entries) p ptr (List.replicate 64 0) = .ok scan ∧
      scan.buffer = (reachedNames entries ptr).foldl overlay [] ++ List.replicate (left + 1) 0 ∧
      0 ∉ (reachedNames entries ptr).foldl overlay [] := by
  have reads := @reads_file ptr entries (List.replicate 64 0) List.length_replicate
  obtain ⟨scan, ran, buffer⟩ := (findSymbols_reads ptr (symbolFile entries) p _ _).mpr reads
  obtain ⟨left, whole, -, clean⟩ := @overlays_zeros (reachedNames entries ptr)
    (fun name member => by obtain ⟨entry, rfl⟩ := mem_reachedNames member; exact entry.short)
    (fun name member => by obtain ⟨entry, rfl⟩ := mem_reachedNames member; exact entry.name_clean)
  exact ⟨scan, left, ran, buffer.trans whole, clean⟩

/-- A lookup is right exactly when the names it comes across, each written over the
ones before, spell the name of an entry that covers the address. The entry of the
last line is never among them, and a range counts its end as its own. -/
theorem findSymbols_resolves_iff (entries : List SymbolEntry) (p : Option Nat) (ptr : BitVec 64) :
    Resolved entries p ptr ↔ Resolvable entries ptr := by
  obtain ⟨scan, left, ran, buffer, clean⟩ := findSymbols_file entries p ptr
  have named : ∀ name ∈ reachedNames entries ptr, name ≠ [] := by
    intro name member
    obtain ⟨entry, rfl⟩ := mem_reachedNames member
    exact entry.named
  have holds (entry : SymbolEntry) :
      (∃ rest, scan.buffer = entry.name ++ 0 :: rest) ↔ Overlaid (reachedNames entries ptr) entry.name := by
    rw [overlaid_iff, buffer, List.replicate_succ]
    constructor
    · rintro ⟨rest, same⟩
      have text := congrArg textOf same
      rwa [textOf_text clean, textOf_text entry.name_clean] at text
    · intro same
      exact ⟨List.replicate left 0, by rw [same]⟩
  have empty : scan.buffer.head? = some 0 ↔ reachedNames entries ptr = [] := by
    rw [← overlays_nil_iff named, buffer]
    cases laid : (reachedNames entries ptr).foldl overlay [] with
    | nil => simp [List.replicate_succ]
    | cons first others =>
      rw [laid] at clean
      have nonzero : first ≠ 0 := fun zero => clean (zero ▸ List.mem_cons_self)
      simpa using nonzero
  constructor
  · rintro ⟨scan', ran', covered, uncovered⟩
    obtain rfl := Except.ok.inj (ran.symm.trans ran')
    simp only [holds] at covered
    exact ⟨covered, fun none' => empty.mp (uncovered none')⟩
  · rintro ⟨covered, uncovered⟩
    refine ⟨scan, ran, ?_, fun none' => empty.mpr (uncovered none')⟩
    simp only [holds]
    exact covered

/-- The entry of a one-line file is not found. -/
theorem findSymbols_last_line : ¬ ∀ (entries : List SymbolEntry) (p : Option Nat) (ptr : BitVec 64),
    Resolved entries p ptr := by
  intro resolved
  let entry : SymbolEntry :=
    ⟨0xffffffff80000000, some 16, 84, [102], by decide, by decide, by decide, by decide, by decide⟩
  obtain ⟨scan, ran, covered, -⟩ := resolved [entry] none 0xffffffff80000000
  obtain ⟨scan', left, ran', buffer, -⟩ := findSymbols_file [entry] none 0xffffffff80000000
  obtain rfl := Except.ok.inj (ran.symm.trans ran')
  obtain ⟨found, member, -, rest, name⟩ := covered ⟨entry, List.mem_singleton.mpr rfl, by decide, by decide⟩
  obtain rfl := List.mem_singleton.mp member
  have first : (0 : BitVec 8) = 102 := (List.cons.inj (buffer.symm.trans name)).1
  exact absurd first (by decide)

end Navy
