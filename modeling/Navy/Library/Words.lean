import Mathlib.Data.List.Infix
import Mathlib.Data.List.TakeWhile

/-! The words of a text, and a cutter that hands them out one by one. The cutter
skips a single delimiter before a word and takes the one behind it, so that it
needs delimiters to stand apart. -/

namespace Words

variable {α : Type} (delimiter : α → Bool)

/-- The maximal runs without a delimiter. -/
def words (text : List α) : List (List α) := (text.splitOnP delimiter).filter (!·.isEmpty)

def skip : List α → List α
  | [] => []
  | first :: rest => if delimiter first then rest else first :: rest

/-- The next word as the cutter takes it, and what is left. -/
def cut (text : List α) : Option (List α × List α) :=
  if (skip delimiter text).isEmpty then none
  else some ((skip delimiter text).takeWhile (!delimiter ·), ((skip delimiter text).dropWhile (!delimiter ·)).tail)

/-- The words as they come, counted from zero. -/
def nth : Nat → List α → Option (List α)
  | 0, text => (cut delimiter text).map Prod.fst
  | index + 1, text => (cut delimiter text).bind fun piece => nth index piece.2

/-- At most one delimiter in front, and never three in a row. -/
structure Sparse (text : List α) : Prop where
  front : ¬ [true, true] <+: text.map delimiter
  runs : ¬ [true, true, true] <:+: text.map delimiter

variable {delimiter} {text word rest : List α} {mark : α}

theorem words_break (isMark : delimiter mark) (text rest : List α) :
    words delimiter (text ++ mark :: rest) = words delimiter text ++ words delimiter rest := by
  unfold words
  rw [List.splitOnP_append_cons text rest isMark, List.filter_append]

theorem words_nil : words delimiter ([] : List α) = [] := by
  simp [words, List.splitOnP_nil]

theorem words_mark (isMark : delimiter mark) : words delimiter (mark :: rest) = words delimiter rest := by
  have split := words_break isMark [] rest
  rwa [words_nil, List.nil_append, List.nil_append] at split

theorem words_plain (some' : word ≠ []) (plain : ∀ letter ∈ word, delimiter letter = false) :
    words delimiter word = [word] := by
  unfold words
  rw [List.splitOnP_eq_singleton plain]
  simp [some']

theorem nonempty_of_mem (member : word ∈ words delimiter text) : word ≠ [] := by
  have kept := (List.mem_filter.mp member).2
  rintro rfl
  simp at kept

/-- A text that starts with a letter starts with a word. -/
theorem first_word {letter : α} (plain : delimiter letter = false) (rest : List α) :
    ∃ word, word ≠ [] ∧ (∀ letter ∈ word, delimiter letter = false) ∧
      (letter :: rest = word ∨ ∃ mark others, delimiter mark ∧ letter :: rest = word ++ mark :: others) := by
  induction rest generalizing letter with
  | nil => exact ⟨[letter], by simp, by simpa using plain, .inl rfl⟩
  | cons next rest ih =>
    cases isMark : delimiter next with
    | true => exact ⟨[letter], by simp, by simpa using plain, .inr ⟨next, rest, isMark, rfl⟩⟩
    | false =>
      obtain ⟨word, -, plains, shape⟩ := ih isMark
      refine ⟨letter :: word, by simp, by simpa [plain] using plains, ?_⟩
      rcases shape with whole | ⟨mark, others, isMark, split⟩
      · exact .inl (congrArg (letter :: ·) whole)
      · exact .inr ⟨mark, others, isMark, congrArg (letter :: ·) split⟩

theorem skip_mark (isMark : delimiter mark) : skip delimiter (mark :: rest) = rest := if_pos isMark

theorem skip_plain {letter : α} (plain : delimiter letter = false) : skip delimiter (letter :: rest) = letter :: rest :=
  if_neg (by simp [plain])

private theorem skip_word (some' : word ≠ []) (plain : ∀ letter ∈ word, delimiter letter = false) (rest : List α) :
    skip delimiter (word ++ rest) = word ++ rest := by
  cases word with
  | nil => exact absurd rfl some'
  | cons letter word => exact skip_plain (plain letter List.mem_cons_self)

theorem cut_nil : cut delimiter ([] : List α) = none := rfl

/-- A word at the end of the text. -/
theorem cut_last (some' : word ≠ []) (plain : ∀ letter ∈ word, delimiter letter = false) :
    cut delimiter word = some (word, []) := by
  have kept := skip_word some' plain []
  rw [List.append_nil] at kept
  have letters : ∀ letter ∈ word, (!delimiter letter) = true := by simpa using plain
  unfold cut
  rw [kept, List.takeWhile_eq_self_iff.mpr letters, List.dropWhile_eq_nil_iff.mpr letters, if_neg (by simp [some'])]
  rfl

theorem cut_word (some' : word ≠ []) (plain : ∀ letter ∈ word, delimiter letter = false)
    (isMark : delimiter mark) (rest : List α) : cut delimiter (word ++ mark :: rest) = some (word, rest) := by
  have letters : ∀ letter ∈ word, (!delimiter letter) = true := by simpa using plain
  unfold cut
  rw [skip_word some' plain, List.takeWhile_append_of_pos letters, List.dropWhile_append_of_pos letters,
    List.takeWhile_cons_of_neg (by simp [isMark]), List.dropWhile_cons_of_neg (by simp [isMark]), if_neg (by simp),
    List.append_nil]
  rfl

theorem cut_single (isMark : delimiter mark) : cut delimiter [mark] = none := by
  unfold cut
  rw [skip_mark isMark]
  rfl

/-- One delimiter in front is skipped. -/
theorem cut_mark (isMark : delimiter mark) {letter : α} (plain : delimiter letter = false) (rest : List α) :
    cut delimiter (mark :: letter :: rest) = cut delimiter (letter :: rest) := by
  unfold cut
  rw [skip_mark isMark, skip_plain plain]

/-- Of a second one the cutter makes an empty word. -/
theorem cut_marks {other : α} (isMark : delimiter mark) (again : delimiter other) (rest : List α) :
    cut delimiter (mark :: other :: rest) = some ([], rest) := by
  unfold cut
  rw [skip_mark isMark, List.takeWhile_cons_of_neg (by simp [again]), List.dropWhile_cons_of_neg (by simp [again])]
  rfl

theorem nth_congr {other : List α} (same : cut delimiter text = cut delimiter other) (index : Nat) :
    nth delimiter index text = nth delimiter index other := by
  cases index with
  | zero => exact congrArg (Option.map Prod.fst) same
  | succ index => exact congrArg (Option.bind · _) same

section Sparse

private theorem marks_plain (plain : ∀ letter ∈ word, delimiter letter = false) :
    word.map delimiter = List.replicate word.length false := by
  rw [List.eq_replicate_iff]
  simpa using plain

private theorem runs_plain (count : Nat) (marks : List Bool) :
    [true, true, true] <:+: List.replicate count false ++ marks ↔ [true, true, true] <:+: marks := by
  induction count with
  | zero => rfl
  | succ count ih =>
    rw [List.replicate_succ, List.cons_append, List.infix_cons_iff, ih]
    simp

theorem sparse_nil : Sparse delimiter ([] : List α) := ⟨by simp, by simp⟩

theorem sparse_last (some' : word ≠ []) (plain : ∀ letter ∈ word, delimiter letter = false) :
    Sparse delimiter word := by
  have runs := runs_plain word.length []
  rw [List.append_nil] at runs
  constructor
  · rw [marks_plain plain]
    cases word with
    | nil => exact absurd rfl some'
    | cons letter word => simp [List.replicate_succ]
  · rw [marks_plain plain, runs]
    simp

theorem sparse_word (some' : word ≠ []) (plain : ∀ letter ∈ word, delimiter letter = false)
    (isMark : delimiter mark) (rest : List α) :
    Sparse delimiter (word ++ mark :: rest) ↔ Sparse delimiter rest := by
  have front : ¬ [true, true] <+: (word ++ mark :: rest).map delimiter := by
    cases word with
    | nil => exact absurd rfl some'
    | cons letter word => simp [plain letter List.mem_cons_self]
  have runs : [true, true, true] <:+: (word ++ mark :: rest).map delimiter ↔
      [true, true] <+: rest.map delimiter ∨ [true, true, true] <:+: rest.map delimiter := by
    rw [List.map_append, marks_plain plain, runs_plain, List.map_cons, isMark, List.infix_cons_iff,
      List.cons_prefix_cons]
    simp
  constructor
  · intro sparse
    have apart := mt runs.mpr sparse.runs
    exact ⟨fun prefix' => apart (.inl prefix'), fun infix' => apart (.inr infix')⟩
  · intro sparse
    exact ⟨front, fun infix' => (runs.mp infix').elim sparse.front sparse.runs⟩

theorem sparse_mark {letter : α} (plain : delimiter letter = false) (rest : List α) :
    Sparse delimiter (mark :: letter :: rest) ↔ Sparse delimiter (letter :: rest) := by
  have front (others : List α) : ¬ [true, true] <+: (letter :: others).map delimiter := by simp [plain]
  constructor
  · intro sparse
    refine ⟨front rest, fun infix' => sparse.runs ?_⟩
    rw [List.map_cons]
    exact List.infix_cons infix'
  · intro sparse
    refine ⟨by simp [plain], fun infix' => ?_⟩
    rw [List.map_cons, List.infix_cons_iff] at infix'
    rcases infix' with prefix' | infix'
    · simp [plain] at prefix'
    · exact sparse.runs infix'

end Sparse

/-- The cutter hands out the words of a text just where delimiters stand apart. -/
theorem nth_words_iff (text : List α) :
    (∀ index, nth delimiter index text = (words delimiter text)[index]?) ↔ Sparse delimiter text := by
  induction measured : text.length using Nat.strong_induction_on generalizing text with
  | h size ih =>
    -- a text that starts with a letter
    have lettered {letter : α} {rest : List α} (plain : delimiter letter = false) (short : rest.length < size) :
        (∀ index, nth delimiter index (letter :: rest) = (words delimiter (letter :: rest))[index]?) ↔
          Sparse delimiter (letter :: rest) := by
      obtain ⟨word, some', plains, shape⟩ := first_word plain rest
      rcases shape with whole | ⟨mark, others, isMark, split⟩
      · rw [whole]
        refine ⟨fun _ => sparse_last some' plains, fun _ index => ?_⟩
        rw [words_plain some' plains]
        cases index with
        | zero => rw [nth, cut_last some' plains]; rfl
        | succ index =>
          rw [nth, cut_last some' plains]
          cases index <;> rfl
      · have shorter : others.length < size := by
          have lengths := congrArg List.length split
          have long := List.length_pos_iff.mpr some'
          simp only [List.length_cons, List.length_append] at lengths
          omega
        rw [split, sparse_word some' plains isMark, ← ih _ shorter others rfl, words_break isMark,
          words_plain some' plains]
        have step (index : Nat) : nth delimiter (index + 1) (word ++ mark :: others) = nth delimiter index others := by
          rw [nth, cut_word some' plains isMark]
          rfl
        constructor
        · intro exact' index
          rw [← step, exact' (index + 1)]
          rfl
        · intro exact' index
          cases index with
          | zero => rw [nth, cut_word some' plains isMark]; rfl
          | succ index => rw [step, exact' index]; rfl
    cases text with
    | nil =>
      refine ⟨fun _ => sparse_nil, fun _ index => ?_⟩
      rw [words_nil]
      cases index <;> rfl
    | cons first rest =>
      cases isMark : delimiter first with
      | false => exact lettered isMark (by rw [← measured]; exact Nat.lt_succ_self _)
      | true =>
        cases rest with
        | nil =>
          refine ⟨fun _ => ⟨by simp, by simp [isMark, List.infix_cons_iff]⟩, fun _ index => ?_⟩
          have empty : cut delimiter [first] = none := cut_single isMark
          rw [words_mark isMark, words_nil]
          cases index with
          | zero => rw [nth, empty]; rfl
          | succ index => rw [nth, empty]; rfl
        | cons second rest =>
          cases again : delimiter second with
          | true =>
            constructor
            · intro exact'
              have zero := exact' 0
              rw [nth, cut_marks isMark again] at zero
              exact absurd rfl (nonempty_of_mem (List.mem_of_getElem? zero.symm))
            · intro sparse
              exact absurd (by simp [isMark, again]) sparse.front
          | false =>
            rw [words_mark isMark, sparse_mark again]
            simp only [nth_congr (cut_mark isMark again rest)]
            exact lettered again (by rw [← measured, List.length_cons, List.length_cons]; omega)

end Words
