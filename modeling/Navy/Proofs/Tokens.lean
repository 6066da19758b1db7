import Navy.Proofs.Strings
import Navy.Library.Words

/-! Strings cut into tokens. Between two calls the object is what earlier calls
left, the text still to be cut, and the terminator with what follows it. -/

namespace Navy
open Outcome

variable {front text word rest marks : List (BitVec 8)}

/-- The characters a call looks for. -/
def delimiter (marks : List (BitVec 8)) (byte : BitVec 8) : Bool := marks.contains byte

theorem isDelim_marks (clean : 0 ∉ marks) (byte : BitVec 8) :
    isDelim (marks ++ [0]) byte = .ok (delimiter marks byte) := by
  unfold isDelim
  rw [strlen_text clean, ok_bind, List.take_left]
  rfl

theorem delimiter_zero (clean : 0 ∉ marks) : delimiter marks 0 = false := by
  unfold delimiter
  rw [List.contains_eq_mem]
  exact decide_eq_false clean

theorem byteAt_front (front : List (BitVec 8)) (byte : BitVec 8) (rest : List (BitVec 8)) :
    byteAt (front ++ byte :: rest) front.length = .ok byte := by
  unfold byteAt
  rw [List.getElem?_append_right (Nat.le_refl _), Nat.sub_self]
  rfl

theorem tokenEnd_word (cleanMarks : 0 ∉ marks) (clean : 0 ∉ word) (plain : ∀ byte ∈ word, delimiter marks byte = false)
    {state : Tokenizer} (object : state.object = front ++ (word ++ rest)) (ret fuel : Nat) :
    tokenEnd (marks ++ [0]) state ret (fuel + word.length) front.length =
      tokenEnd (marks ++ [0]) state ret fuel (front ++ word).length := by
  induction word generalizing front with
  | nil => rw [List.append_nil]; rfl
  | cons byte word ih =>
    obtain ⟨nonzero, clean⟩ := not_or.mp (mt List.mem_cons.mpr clean)
    have here : byteAt state.object front.length = .ok byte := by
      rw [object, List.cons_append]
      exact byteAt_front front byte _
    have next := @ih (front ++ [byte]) clean (fun other member => plain other (List.mem_cons_of_mem _ member))
      (by rw [object]; simp)
    rw [List.length_cons, ← Nat.add_assoc, tokenEnd, here, ok_bind, if_neg fun zero => nonzero zero.symm,
      isDelim_marks cleanMarks, ok_bind, plain byte List.mem_cons_self, if_neg Bool.false_ne_true,
      show front.length + 1 = (front ++ [byte]).length by simp, next]
    simp

theorem tokenEnd_last (cleanMarks : 0 ∉ marks) (clean : 0 ∉ word)
    (plain : ∀ byte ∈ word, delimiter marks byte = false) {state : Tokenizer}
    (object : state.object = front ++ (word ++ 0 :: rest)) {ret fuel : Nat} (enough : word.length < fuel) :
    tokenEnd (marks ++ [0]) state ret fuel front.length = .ok
      (some ret, { state with p := some (front ++ word).length }) := by
  have passed := tokenEnd_word cleanMarks clean plain object ret (fuel - word.length)
  rw [Nat.sub_add_cancel (Nat.le_of_lt enough)] at passed
  obtain ⟨left, more⟩ : ∃ left, fuel - word.length = left + 1 := ⟨fuel - word.length - 1, by omega⟩
  have here : byteAt state.object (front ++ word).length = .ok 0 := by
    rw [object, ← List.append_assoc]
    exact byteAt_front _ 0 _
  rw [passed, more, tokenEnd, here, ok_bind, if_pos rfl]
  rfl

/-- A word in front of a delimiter, which becomes its terminator. -/
theorem tokenEnd_mark (cleanMarks : 0 ∉ marks) (clean : 0 ∉ word) (plain : ∀ byte ∈ word, delimiter marks byte = false)
    {mark : BitVec 8} (isMark : delimiter marks mark) {state : Tokenizer}
    (object : state.object = front ++ (word ++ mark :: rest)) {ret fuel : Nat} (enough : word.length < fuel) :
    tokenEnd (marks ++ [0]) state ret fuel front.length =
      .ok (some ret, ⟨front ++ word ++ [0] ++ rest, some (front ++ word ++ [0]).length⟩) := by
  have passed := tokenEnd_word cleanMarks clean plain object ret (fuel - word.length)
  rw [Nat.sub_add_cancel (Nat.le_of_lt enough)] at passed
  obtain ⟨left, more⟩ : ∃ left, fuel - word.length = left + 1 := ⟨fuel - word.length - 1, by omega⟩
  have here : byteAt state.object (front ++ word).length = .ok mark := by
    rw [object, ← List.append_assoc]
    exact byteAt_front _ mark _
  have nonzero : mark ≠ 0 := by
    intro zero
    rw [zero, delimiter_zero cleanMarks] at isMark
    exact Bool.false_ne_true isMark
  have written : state.object.set (front ++ word).length 0 = front ++ word ++ [0] ++ rest := by
    rw [object, ← List.append_assoc, List.set_append_right _ _ (Nat.le_refl _), Nat.sub_self]
    simp
  have behind : (front ++ word ++ [0]).length = (front ++ word).length + 1 := List.length_append
  rw [passed, more, tokenEnd, here, ok_bind, if_neg nonzero, isDelim_marks cleanMarks, ok_bind, if_pos isMark,
    written, behind]
  rfl

/-- The object and the place between two calls, with the text still to be cut. -/
def Pending (front text rest : List (BitVec 8)) : Tokenizer := ⟨front ++ (text ++ 0 :: rest), some front.length⟩

/-- What a call makes of a text without a word, of one that ends with a word, and
of one with a delimiter behind its first word. -/
inductive Cut (marks front text rest : List (BitVec 8)) : Option Nat → Tokenizer → Prop
  | none (empty : Words.cut (delimiter marks) text = none) : Cut marks front text rest none (Pending front text rest)
  | last (skipped word : List (BitVec 8)) (split : text = skipped ++ word)
      (cut : Words.cut (delimiter marks) text = some (word, [])) :
      Cut marks front text rest (some (front ++ skipped).length) (Pending (front ++ skipped ++ word) [] rest)
  | word (skipped word left : List (BitVec 8)) (mark : BitVec 8) (split : text = skipped ++ (word ++ mark :: left))
      (cut : Words.cut (delimiter marks) text = some (word, left)) :
      Cut marks front text rest (some (front ++ skipped).length) (Pending (front ++ skipped ++ word ++ [0]) left rest)

/-- The second half of a call, at a place where it does not skip anything more. -/
def tokenFrom (delim : List (BitVec 8)) (state : Tokenizer) (str : Nat) : Checked (Option Nat × Tokenizer) := do
  let byte ← byteAt state.object str
  if byte = 0 then return (none, state)
  else tokenEnd delim state str (state.object.length + 1) str

theorem tokenFrom_nil (state : Tokenizer) {delim : List (BitVec 8)} (object : state.object = front ++ 0 :: rest) :
    tokenFrom delim state front.length = .ok (none, state) := by
  have here : byteAt state.object front.length = .ok 0 := by
    rw [object]
    exact byteAt_front front 0 rest
  rw [tokenFrom, here, ok_bind, if_pos rfl]
  rfl

theorem tokenFrom_cons {byte : BitVec 8} (nonzero : byte ≠ 0) (state : Tokenizer) {delim : List (BitVec 8)}
    (object : state.object = front ++ byte :: rest) :
    tokenFrom delim state front.length = tokenEnd delim state front.length (state.object.length + 1) front.length := by
  have here : byteAt state.object front.length = .ok byte := by
    rw [object]
    exact byteAt_front front byte rest
  rw [tokenFrom, here, ok_bind, if_neg nonzero]

/-- A call skips one delimiter at most. -/
theorem strtok_skip (cleanMarks : 0 ∉ marks) {byte : BitVec 8} {object : List (BitVec 8)} {p str : Option Nat}
    (start : (str <|> p) = some front.length) (shape : object = front ++ byte :: rest) :
    strtok ⟨object, p⟩ str (marks ++ [0]) =
      tokenFrom (marks ++ [0]) ⟨object, some front.length⟩ (if delimiter marks byte then front.length + 1
        else front.length) := by
  have here : byteAt object front.length = .ok byte := by
    rw [shape]
    exact byteAt_front front byte rest
  unfold strtok
  simp only [start]
  rw [here, ok_bind, isDelim_marks cleanMarks, ok_bind]
  rfl

/-- From a letter on, a call finds the word it starts. -/
theorem tokenFrom_letter (cleanMarks : 0 ∉ marks) {skipped others : List (BitVec 8)} {letter : BitVec 8}
    (clean : 0 ∉ letter :: others) (plain : delimiter marks letter = false) (split : text = skipped ++ letter :: others)
    (cut : Words.cut (delimiter marks) text = Words.cut (delimiter marks) (letter :: others)) :
    ∃ ret state, tokenFrom (marks ++ [0]) (Pending front text rest) (front ++ skipped).length = .ok (ret, state) ∧
      Cut marks front text rest ret state := by
  obtain ⟨word, some', plains, shape⟩ := Words.first_word plain others
  have object : (Pending front text rest).object = front ++ skipped ++ (letter :: others ++ 0 :: rest) := by
    rw [Pending, split]
    simp
  rw [tokenFrom_cons (fun zero => clean (zero ▸ List.mem_cons_self)) _ object]
  have long : word.length < (Pending front text rest).object.length + 1 := by
    have lengths := congrArg List.length object
    rcases shape with whole | ⟨mark, left, -, whole⟩
    · rw [whole] at lengths
      simp only [List.length_append] at lengths
      omega
    · rw [whole] at lengths
      simp only [List.length_append] at lengths
      omega
  rcases shape with whole | ⟨mark, left, isMark, whole⟩
  · rw [whole] at object clean split cut
    rw [Words.cut_last some' plains] at cut
    refine ⟨_, _, tokenEnd_last cleanMarks clean plains object long, ?_⟩
    have same : ({ Pending front text rest with p := some (front ++ skipped ++ word).length } : Tokenizer) =
        Pending (front ++ skipped ++ word) [] rest := by
      rw [Pending, Pending, split]
      simp
    rw [same]
    exact .last skipped word split cut
  · rw [whole] at object clean split cut
    rw [Words.cut_word some' plains isMark] at cut
    have cleanWord : 0 ∉ word := fun member => clean (List.mem_append_left _ member)
    rw [List.append_assoc word, List.cons_append] at object
    refine ⟨_, _, tokenEnd_mark cleanMarks cleanWord plains isMark object long, ?_⟩
    exact .word skipped word left mark split cut

theorem strtok_cut (cleanMarks : 0 ∉ marks) (clean : 0 ∉ text) {p str : Option Nat}
    (start : (str <|> p) = some front.length) :
    ∃ ret state, strtok ⟨front ++ (text ++ 0 :: rest), p⟩ str (marks ++ [0]) = .ok (ret, state) ∧
      Cut marks front text rest ret state := by
  cases text with
  | nil =>
    have shape : front ++ ([] ++ 0 :: rest) = front ++ 0 :: rest := rfl
    rw [strtok_skip cleanMarks start shape, delimiter_zero cleanMarks, if_neg Bool.false_ne_true]
    exact ⟨none, _, tokenFrom_nil _ rfl, .none Words.cut_nil⟩
  | cons first others =>
    have shape : front ++ (first :: others ++ 0 :: rest) = front ++ first :: (others ++ 0 :: rest) := rfl
    rw [strtok_skip cleanMarks start shape]
    cases isMark : delimiter marks first with
    | false =>
      rw [if_neg Bool.false_ne_true]
      have found := @tokenFrom_letter front (first :: others) rest marks cleanMarks [] others first clean isMark rfl rfl
      rwa [List.append_nil] at found
    | true =>
      have skipped : front.length + 1 = (front ++ [first]).length := by simp
      rw [if_pos rfl, skipped]
      cases others with
      | nil =>
        have object : (Pending front [first] rest).object = front ++ [first] ++ 0 :: rest := by simp [Pending]
        exact ⟨none, _, tokenFrom_nil _ object, .none (Words.cut_single isMark)⟩
      | cons second others =>
        have clean' : 0 ∉ second :: others := fun member => clean (List.mem_cons_of_mem _ member)
        cases again : delimiter marks second with
        | false => exact tokenFrom_letter cleanMarks clean' again rfl (Words.cut_mark isMark again others)
        | true =>
          -- an empty token
          have object : (Pending front (first :: second :: others) rest).object =
              front ++ [first] ++ ([] ++ second :: (others ++ 0 :: rest)) := by simp [Pending]
          have nonzero : second ≠ 0 := fun zero => clean' (zero ▸ List.mem_cons_self)
          refine ⟨_, _, (tokenFrom_cons nonzero _ object).trans
            (tokenEnd_mark cleanMarks List.not_mem_nil (by simp) again object (Nat.succ_pos _)), ?_⟩
          exact .word [first] [] others second rfl (Words.cut_marks isMark again others)

theorem textOf_text (clean : 0 ∉ text) : textOf (text ++ 0 :: rest) = text := by
  induction text with
  | nil => rfl
  | cons byte text ih =>
    obtain ⟨nonzero, clean⟩ := not_or.mp (mt List.mem_cons.mpr clean)
    rw [List.cons_append, textOf, if_neg fun zero => nonzero zero.symm, ih clean]

/-- The string a returned pointer stands for. -/
def token (ret : Option Nat) (state : Tokenizer) : Option (List (BitVec 8)) :=
  ret.map fun place => textOf (state.object.drop place)

/-- A call hands out the next word, and what is pending from then on is the rest. -/
theorem Cut.next (clean : 0 ∉ text) {ret : Option Nat} {state : Tokenizer} (cut : Cut marks front text rest ret state) :
    token ret state = Words.nth (delimiter marks) 0 text ∧ ∃ front' left, state = Pending front' left rest ∧ 0 ∉ left ∧
      ∀ index, Words.nth (delimiter marks) (index + 1) text = Words.nth (delimiter marks) index left := by
  cases cut with
  | none empty =>
    refine ⟨by rw [Words.nth, empty]; rfl, front, text, rfl, clean, fun index => ?_⟩
    rw [Words.nth, empty]
    cases index with
    | zero => rw [Words.nth, empty]; rfl
    | succ index => rw [Words.nth, empty]; rfl
  | last skipped word split cut =>
    refine ⟨?_, _, [], rfl, List.not_mem_nil, fun index => by rw [Words.nth, cut]; rfl⟩
    have clean' : 0 ∉ word := fun member => clean (by rw [split]; exact List.mem_append_right _ member)
    have object : (Pending (front ++ skipped ++ word) [] rest).object =
      front ++ skipped ++ (word ++ 0 :: rest) := by simp [Pending]
    rw [Words.nth, cut, token, object, Option.map_some, List.drop_left, textOf_text clean']
    rfl
  | word skipped word left mark split cut =>
    have clean' : 0 ∉ word :=
      fun member => clean (by rw [split]; exact List.mem_append_right _ (List.mem_append_left _ member))
    have cleanLeft : 0 ∉ left := fun member =>
      clean (by rw [split]; exact List.mem_append_right _ (List.mem_append_right _ (List.mem_cons_of_mem _ member)))
    refine ⟨?_, _, left, rfl, cleanLeft, fun index => by rw [Words.nth, cut]; rfl⟩
    have object : (Pending (front ++ skipped ++ word ++ [0]) left rest).object =
        front ++ skipped ++ (word ++ 0 :: (left ++ 0 :: rest)) := by simp [Pending]
    rw [Words.nth, cut, token, object, Option.map_some, List.drop_left, textOf_text clean']
    rfl

/-- A word lies at a place of the object and is not cut again: its terminator is in
front of what is pending, or nothing is pending. -/
def Held (place : Nat) (word front left : List (BitVec 8)) : Prop :=
  0 ∉ word ∧ ∃ before, before.length = place ∧
    ((∃ after, front = before ++ word ++ 0 :: after) ∨ front = before ++ word ∧ left = [])

theorem Held.drop {place : Nat} {left : List (BitVec 8)} (held : Held place word front left) (rest : List (BitVec 8)) :
    ∃ after, (Pending front left rest).object.drop place = word ++ 0 :: after := by
  obtain ⟨-, before, rfl, ⟨after, rfl⟩ | ⟨rfl, rfl⟩⟩ := held
  · refine ⟨after ++ (left ++ 0 :: rest), ?_⟩
    simp [Pending]
  · refine ⟨rest, ?_⟩
    simp [Pending]

/-- What a call hands out for a text, and what it keeps. -/
structure Handed (marks front text : List (BitVec 8)) (ret : Option Nat) (front' left : List (BitVec 8)) : Prop where
  clean : 0 ∉ left
  length : front'.length + left.length = front.length + text.length
  kept : ∀ place word, Held place word front text → Held place word front' left
  result : Words.cut (delimiter marks) text = none ∧ ret = none ∧ left = text ∨
    ∃ place word, Words.cut (delimiter marks) text = some (word, left) ∧ ret = some place ∧ Held place word front' left

theorem Cut.handed (clean : 0 ∉ text) {ret : Option Nat} {state : Tokenizer}
    (cut : Cut marks front text rest ret state) :
    ∃ front' left, state = Pending front' left rest ∧ Handed marks front text ret front' left := by
  cases cut with
  | none empty => exact ⟨front, text, rfl, clean, rfl, fun _ _ held => held, .inl ⟨empty, rfl, rfl⟩⟩
  | last skipped word split cut =>
    have clean' : 0 ∉ word := fun member => clean (by rw [split]; exact List.mem_append_right _ member)
    refine ⟨_, [], rfl, List.not_mem_nil, ?_, ?_,
      .inr ⟨_, word, cut, rfl, clean', front ++ skipped, rfl, .inr ⟨rfl, rfl⟩⟩⟩
    · rw [split]
      simp
    · intro place other held
      obtain ⟨clean, before, placed, ⟨after, rfl⟩ | ⟨-, empty⟩⟩ := held
      · exact ⟨clean, before, placed, .inl ⟨after ++ (skipped ++ word), by simp⟩⟩
      · rw [empty, Words.cut_nil] at cut
        cases cut
  | word skipped word left mark split cut =>
    have clean' : 0 ∉ word :=
      fun member => clean (by rw [split]; exact List.mem_append_right _ (List.mem_append_left _ member))
    have cleanLeft : 0 ∉ left := fun member =>
      clean (by rw [split]; exact List.mem_append_right _ (List.mem_append_right _ (List.mem_cons_of_mem _ member)))
    refine ⟨_, left, rfl, cleanLeft, ?_, ?_, .inr ⟨_, word, cut, rfl, clean', front ++ skipped, rfl, .inl ⟨[], rfl⟩⟩⟩
    · rw [split]
      simp only [List.length_append, List.length_cons, List.length_nil]
      omega
    · intro place other held
      obtain ⟨clean, before, placed, ⟨after, rfl⟩ | ⟨-, empty⟩⟩ := held
      · exact ⟨clean, before, placed, .inl ⟨after ++ (skipped ++ word ++ [0]), by simp⟩⟩
      · rw [empty, Words.cut_nil] at cut
        cases cut

theorem strtok_handed (cleanMarks : 0 ∉ marks) (clean : 0 ∉ text) {p str : Option Nat}
    (start : (str <|> p) = some front.length) :
    ∃ ret front' left, strtok ⟨front ++ (text ++ 0 :: rest), p⟩ str (marks ++ [0]) = .ok
      (ret, Pending front' left rest) ∧
      Handed marks front text ret front' left := by
  obtain ⟨ret, state, ran, cut⟩ := @strtok_cut front text rest marks cleanMarks clean p str start
  obtain ⟨front', left, same, handed⟩ := cut.handed clean
  refine ⟨ret, front', left, ?_, handed⟩
  rw [ran, same]

/-- `strtok(s, delim)` and then `strtok(NULL, delim)` again and again. -/
def session (object delim : List (BitVec 8)) (p : Option Nat) : Nat → Checked (Option Nat × Tokenizer)
  | 0 => strtok ⟨object, p⟩ (some 0) delim
  | count + 1 => do
    let before ← session object delim p count
    strtok before.2 none delim

/-- Every call of a session hands out the word it is its turn for, and `NULL` from
the end of the words on. -/
def Tokenised (s marks rest : List (BitVec 8)) (p : Option Nat) : Prop :=
  ∀ count, ∃ ret state, session (s ++ 0 :: rest) (marks ++ [0]) p count = .ok (ret, state) ∧
    token ret state = (Words.words (delimiter marks) s)[count]?

theorem session_cuts {s : List (BitVec 8)} (cleanMarks : 0 ∉ marks) (clean : 0 ∉ s) (p : Option Nat) (count : Nat) :
    ∃ ret state, session (s ++ 0 :: rest) (marks ++ [0]) p count = .ok (ret, state) ∧
      token ret state = Words.nth (delimiter marks) count s ∧ ∃ front left, state = Pending front left rest ∧ 0 ∉ left ∧
        ∀ index, Words.nth (delimiter marks) (count + 1 + index) s = Words.nth (delimiter marks) index left := by
  induction count with
  | zero =>
    obtain ⟨ret, state, ran, cut⟩ := @strtok_cut [] s rest marks cleanMarks clean p (some 0) rfl
    obtain ⟨next, front, left, same, clean', others⟩ := cut.next clean
    refine ⟨ret, state, ran, next, front, left, same, clean', fun index => ?_⟩
    rw [Nat.zero_add, Nat.add_comm]
    exact others index
  | succ count ih =>
    obtain ⟨before, middle, ran, -, front, left, rfl, clean', others⟩ := ih
    obtain ⟨ret, state, turn, cut⟩ := @strtok_cut front left rest marks cleanMarks clean' (some front.length) none rfl
    obtain ⟨next, front', left', same, clean'', rest'⟩ := cut.next clean'
    refine ⟨ret, state, ?_, next.trans (others 0).symm, front', left', same, clean'', fun index => ?_⟩
    · rw [session, ran, ok_bind]
      exact turn
    · rw [← rest' index, ← others (index + 1)]
      congr 1
      omega

/-- Tokenising is exact just where at most one delimiter stands in front and never
three in a row. -/
theorem strtok_exact_iff (s marks rest : List (BitVec 8)) (p : Option Nat) (clean : 0 ∉ s) (cleanMarks : 0 ∉ marks) :
    Tokenised s marks rest p ↔ Words.Sparse (delimiter marks) s := by
  rw [← Words.nth_words_iff]
  constructor
  · intro tokens count
    obtain ⟨ret, state, ran, next⟩ := tokens count
    obtain ⟨ret', state', ran', next', -⟩ := @session_cuts rest marks s cleanMarks clean p count
    obtain ⟨rfl, rfl⟩ := Prod.mk.inj (Except.ok.inj (ran.symm.trans ran'))
    rw [← next', next]
  · intro exact' count
    obtain ⟨ret, state, ran, next, -⟩ := @session_cuts rest marks s cleanMarks clean p count
    exact ⟨ret, state, ran, next.trans (exact' count)⟩

theorem strtok_exact_pair : Tokenised [97, 32, 98] [32] [] none ↔ Words.Sparse (delimiter [32]) [97, 32, 98] :=
  strtok_exact_iff [97, 32, 98] [32] [] none (by decide) (by decide)

/-- Of two spaces in front the first call makes an empty token. -/
theorem strtok_empty_token :
    ¬ ∀ (s marks rest : List (BitVec 8)) (p : Option Nat), 0 ∉ s → 0 ∉ marks → marks ≠ [] →
      Tokenised s marks rest p := by
  intro tokens
  obtain ⟨ret, state, ran, first⟩ := tokens [32, 32, 97] [32] [] none (by decide) (by decide) (by decide) 0
  obtain ⟨rfl, rfl⟩ := Prod.mk.inj (Except.ok.inj ran)
  exact absurd first (by decide)

end Navy
