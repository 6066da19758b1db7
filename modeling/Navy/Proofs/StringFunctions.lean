import Navy.Proofs.Strings

/-! What the string functions promise: a move between regions that may overlap,
and an order of strings. The loop of `memmove` runs upwards only, and a
comparison looks at the second characters wherever the difference is. -/

namespace Navy
open Outcome

/-- The bytes at `dest` are those that were at `src`, and no other byte changed. -/
def Moved (mem after : Bytes) (dest src n : Nat) : Prop :=
  (∀ i < n, after (dest + i) = mem (src + i)) ∧ ∀ place, place < dest ∨ dest + n ≤ place → after place = mem place

/-- The bytes at `src` repeat at a distance. -/
def Repeats (mem : Bytes) (src n distance : Nat) : Prop :=
  ∀ i, i + distance < n → mem (src + i) = mem (src + i + distance)

private theorem Repeats.mod {mem : Bytes} {src n distance : Nat} (repeats : Repeats mem src n distance)
    (i : Nat) (inside : i < n) : mem (src + i % distance) = mem (src + i) := by
  induction i using Nat.strong_induction_on with
  | h i ih =>
    by_cases low : i < distance
    · rw [Nat.mod_eq_of_lt low]
    · by_cases zero : distance = 0
      · rw [zero, Nat.mod_zero]
      · have before := ih (i - distance) (by omega) (by omega)
        rw [Nat.mod_eq_sub_mod (Nat.le_of_not_lt low), before, repeats (i - distance) (by omega)]
        congr 1
        omega

/-- `memmove` is exact unless it copies upwards over an overlap, and there just on
bytes that repeat. -/
theorem memmove_moves_iff (mem : Bytes) (dest src n : Nat) :
    Moved mem (memmove mem dest src n) dest src n ↔ (src < dest → dest < src + n → Repeats mem src n (dest - src)) := by
  have outside (place : Nat) (apart : place < dest ∨ dest + n ≤ place) : memmove mem dest src n place = mem place :=
    Bytes.copy_apart mem dest src n place apart
  by_cases above : src < dest ∧ dest < src + n
  · obtain ⟨low, overlap⟩ := above
    have again (i : Nat) (inside : i < n) : memmove mem dest src n (dest + i) = mem (src + i % (dest - src)) := by
      have copied := Bytes.copy_above mem src n (dest - src) i inside (by omega)
      rwa [show src + (dest - src) = dest by omega] at copied
    constructor
    · intro moved _ _ i inside
      have here := moved.1 (i + (dest - src)) inside
      rw [again _ inside, Nat.add_mod_right, ← again i (by omega), moved.1 i (by omega)] at here
      rw [here, Nat.add_assoc]
    · intro repeats
      refine ⟨fun i inside => ?_, outside⟩
      rw [again i inside, (repeats low overlap).mod i inside]
  · constructor
    · intro _ low overlap
      exact absurd ⟨low, overlap⟩ above
    · intro _
      refine ⟨fun i inside => ?_, outside⟩
      exact Bytes.copy_inside mem dest src n i inside (by omega)

/-- Three bytes moved up by one: the first comes twice. -/
theorem memmove_smears : ¬ ∀ (mem : Bytes) (dest src n : Nat), Moved mem (memmove mem dest src n) dest src n := by
  intro moves
  have second := (moves (fun place => BitVec.ofNat 8 place) 1 0 2).1 1 (by decide)
  exact absurd second (by decide)

/-- The character at a place, which is the terminator behind the last. -/
def charAt (s : List (BitVec 8)) (i : Nat) : BitVec 8 := s.getD i 0

/-- The place up to which two strings are the same, and there they are not. -/
structure FirstDifference (a b : List (BitVec 8)) (i : Nat) : Prop where
  same : ∀ j < i, charAt a j = charAt b j
  differ : charAt a i ≠ charAt b i

/-- What the two comparisons promise of strings `a` and `b` whose objects end with
the terminators, so that a read behind one is a fault. A byte stands for the
number `value` makes of it, signed or not. -/
structure Lexicographic (value : BitVec 8 → Int) (a b : List (BitVec 8)) (n : Nat) : Prop where
  reads : (strncmp (a ++ [0]) (b ++ [0]) n).isOk ∧ (strcmp (a ++ [0]) (b ++ [0])).isOk
  zero : strncmp (a ++ [0]) (b ++ [0]) n = .ok 0 ↔ ∀ j < n, charAt a j = charAt b j
  sign : ∀ i < n, FirstDifference a b i → ∀ order, strncmp (a ++ [0]) (b ++ [0]) n = .ok order →
    order.sign = (value (charAt a i) - value (charAt b i)).sign
  swap : ∀ order other, strncmp (a ++ [0]) (b ++ [0]) n = .ok order → strncmp (b ++ [0]) (a ++ [0]) n = .ok other →
    other.sign = -order.sign
  whole : a.length < n → b.length < n → ∀ order other, strcmp (a ++ [0]) (b ++ [0]) = .ok order →
    strncmp (a ++ [0]) (b ++ [0]) n = .ok other → order.sign = other.sign

/-- The second characters of two strings are in the order of the first that differ,
and so are the lengths as `int`s where the whole strings are compared. -/
structure WellJudged (value : BitVec 8 → Int) (a b : List (BitVec 8)) (n : Nat) : Prop where
  second : ∀ i < n, FirstDifference a b i → a ≠ [] ∧ b ≠ [] ∧
    ((charAt a 1).toInt - (charAt b 1).toInt).sign = (value (charAt a i) - value (charAt b i)).sign
  lengths : a.length < n → b.length < n → a.length ≠ b.length → ∀ i, FirstDifference a b i →
    (BitVec.ofNat 32 (wrapSub a.length b.length)).toInt.sign = (value (charAt a i) - value (charAt b i)).sign

variable {value : BitVec 8 → Int} {a b : List (BitVec 8)}

/-- What `strncmp` answers once it has found a difference. -/
def judge (a b : List (BitVec 8)) : Checked Int := do
  let byte1 ← byteAt (a ++ [0]) 1
  let byte2 ← byteAt (b ++ [0]) 1
  return if byte1.toInt < byte2.toInt then -1 else 1

theorem byteAt_charAt {i : Nat} (inside : i ≤ a.length) : byteAt (a ++ [0]) i = .ok (charAt a i) := by
  unfold byteAt charAt
  rw [List.getD_eq_getElem?_getD]
  rcases Nat.lt_or_ge i a.length with within | last
  · rw [List.getElem?_append_left within, List.getElem?_eq_getElem within]
    rfl
  · rw [List.getElem?_append_right last, List.getElem?_eq_none last, show i - a.length = 0 by omega]
    rfl

theorem byteAt_behind {i : Nat} (behind : a.length < i) : byteAt (a ++ [0]) i = .error .outOfBounds := by
  unfold byteAt
  rw [List.getElem?_eq_none (by rw [List.length_append]; exact behind)]

theorem charAt_zero {i : Nat} (clean : 0 ∉ a) (inside : i ≤ a.length) (zero : charAt a i = 0) : i = a.length := by
  by_contra other
  have within : i < a.length := by omega
  unfold charAt at zero
  rw [List.getD_eq_getElem _ _ within] at zero
  exact clean (zero ▸ List.getElem_mem within)

theorem charAt_length (a : List (BitVec 8)) : charAt a a.length = 0 :=
  List.getD_eq_default _ _ (Nat.le_refl _)

/-- As long as two strings are the same neither ends before the other. -/
theorem same_inside (clean : 0 ∉ a) {i : Nat} (same : ∀ j < i, charAt a j = charAt b j)
    (inside : i ≤ a.length) : i ≤ b.length := by
  by_contra outside
  have ends := same b.length (by omega)
  rw [charAt_length] at ends
  have := charAt_zero clean (by omega) ends
  omega

/-- Up to the first difference the loop goes on. -/
theorem strncmpFrom_skip (clean : 0 ∉ a) {remaining i : Nat} (inside : i < a.length) (inside' : i < b.length)
    (same : charAt a i = charAt b i) :
    strncmpFrom (a ++ [0]) (b ++ [0]) (remaining + 1) i = strncmpFrom (a ++ [0]) (b ++ [0]) remaining (i + 1) := by
  have nonzero : charAt b i ≠ 0 := by
    intro zero
    have := charAt_zero clean (Nat.le_of_lt inside) (same.trans zero)
    omega
  rw [strncmpFrom, byteAt_charAt (Nat.le_of_lt inside), byteAt_charAt (Nat.le_of_lt inside'), ok_bind, ok_bind, same,
    if_neg (not_not.mpr rfl), if_neg nonzero]

theorem strncmpFrom_same (clean : 0 ∉ a) {remaining i : Nat} (inside : i ≤ a.length)
    (same : ∀ j < i + remaining, charAt a j = charAt b j) : strncmpFrom (a ++ [0]) (b ++ [0]) remaining i = .ok 0 := by
  induction remaining generalizing i with
  | zero => rfl
  | succ remaining ih =>
    have inside' : i ≤ b.length := same_inside clean (fun j before => same j (by omega)) inside
    have here := same i (by omega)
    rcases Nat.lt_or_ge i a.length with within | last
    · have within' : i < b.length := by
        by_contra last
        have ends : i = b.length := by omega
        rw [ends, charAt_length] at here
        have := charAt_zero clean (by omega) here
        omega
      rw [strncmpFrom_skip clean within within' here]
      exact ih (by omega) fun j before => same j (by omega)
    · have zero : charAt b i = 0 := by rw [← here, show i = a.length by omega, charAt_length]
      rw [strncmpFrom, byteAt_charAt inside, byteAt_charAt inside', ok_bind, ok_bind, here,
        if_neg (not_not.mpr rfl), if_pos zero]
      rfl

theorem FirstDifference.symm {i : Nat} (first : FirstDifference a b i) : FirstDifference b a i :=
  ⟨fun j before => (first.same j before).symm, first.differ.symm⟩

theorem FirstDifference.inside {i : Nat} (clean : 0 ∉ a) (clean' : 0 ∉ b) (first : FirstDifference a b i) :
    i ≤ a.length ∧ i ≤ b.length := by
  rcases Nat.lt_or_ge a.length i with behind | inside
  · rcases Nat.lt_or_ge b.length i with behind' | inside'
    · have zero (s : List (BitVec 8)) (behind : s.length < i) : charAt s i = 0 :=
        List.getD_eq_default _ _ (Nat.le_of_lt behind)
      exact absurd ((zero a behind).trans (zero b behind').symm) first.differ
    · exact ⟨same_inside clean' first.symm.same inside', inside'⟩
  · exact ⟨inside, same_inside clean first.same inside⟩

theorem strncmpFrom_judge (clean : 0 ∉ a) (clean' : 0 ∉ b) {place remaining i : Nat}
    (first : FirstDifference a b place) (before : i ≤ place) (inside : place < i + remaining) :
    strncmpFrom (a ++ [0]) (b ++ [0]) remaining i =
      judge a b := by
  obtain ⟨short, short'⟩ := first.inside clean clean'
  induction remaining generalizing i with
  | zero => omega
  | succ remaining ih =>
    rcases Nat.lt_or_ge i place with early | here
    · rw [strncmpFrom_skip clean (by omega) (by omega) (first.same i early)]
      exact ih early (by omega)
    · have here : i = place := by omega
      rw [strncmpFrom, byteAt_charAt (by omega), byteAt_charAt (by omega), ok_bind, ok_bind, here, if_pos first.differ]
      rfl

/-- Two strings are the same up to a bound, or differ before it. -/
theorem same_or_differ (a b : List (BitVec 8)) (n : Nat) :
    (∀ j < n, charAt a j = charAt b j) ∨ ∃ i < n, FirstDifference a b i := by
  by_cases same : ∀ j < n, charAt a j = charAt b j
  · exact .inl same
  · right
    simp only [not_forall] at same
    obtain ⟨j, inside, differ⟩ := same
    have found : ∃ j, charAt a j ≠ charAt b j := ⟨j, differ⟩
    refine ⟨Nat.find found, Nat.lt_of_le_of_lt (Nat.find_min' found differ) inside, ?_, Nat.find_spec found⟩
    intro earlier before
    exact not_not.mp (Nat.find_min found before)

/-- The answer of `judge` where both strings have a second character or a terminator there. -/
def verdict (a b : List (BitVec 8)) : Int := if (charAt a 1).toInt < (charAt b 1).toInt then -1 else 1

theorem judge_verdict (some' : a ≠ []) (some'' : b ≠ []) : judge a b = .ok (verdict a b) := by
  unfold judge
  rw [byteAt_charAt (List.length_pos_iff.mpr some'), byteAt_charAt (List.length_pos_iff.mpr some'')]
  rfl

theorem judge_ok {order : Int} (ran : judge a b = .ok order) : a ≠ [] ∧ b ≠ [] ∧ order = verdict a b := by
  have some' : a ≠ [] := by
    intro empty
    unfold judge at ran
    rw [empty, @byteAt_behind [] 1 (by decide)] at ran
    cases ran
  have some'' : b ≠ [] := by
    intro empty
    unfold judge at ran
    rw [byteAt_charAt (List.length_pos_iff.mpr some'), ok_bind, empty, @byteAt_behind [] 1 (by decide)] at ran
    cases ran
  rw [judge_verdict some' some''] at ran
  exact ⟨some', some'', (Except.ok.inj ran).symm⟩

theorem strncmp_judge (clean : 0 ∉ a) (clean' : 0 ∉ b) {n i : Nat} (inside : i < n) (first : FirstDifference a b i) :
    strncmp (a ++ [0]) (b ++ [0]) n = judge a b :=
  strncmpFrom_judge clean clean' first (Nat.zero_le i) (by omega)

theorem strncmp_same (clean : 0 ∉ a) {n : Nat} (same : ∀ j < n, charAt a j = charAt b j) :
    strncmp (a ++ [0]) (b ++ [0]) n = .ok 0 :=
  strncmpFrom_same clean (Nat.zero_le _) fun j before => same j (by omega)

/-- The verdict is one way round just when the second characters are. -/
theorem verdict_sign {sign : Int} : 
    (verdict a b).sign = sign ∧ (verdict b a).sign = -sign ↔
      sign ≠ 0 ∧ ((charAt a 1).toInt - (charAt b 1).toInt).sign = sign := by
  unfold verdict
  rcases Int.lt_trichotomy (charAt a 1).toInt (charAt b 1).toInt with below | equal | above
  · rw [if_pos below, if_neg (by omega), Int.sign_eq_neg_one_of_neg
      (by omega : (charAt a 1).toInt - (charAt b 1).toInt < 0)]
    simp
    omega
  · rw [equal, if_neg (by omega), Int.sub_self]
    simp
    omega
  · rw [if_neg (by omega), if_pos above, Int.sign_eq_one_of_pos
      (by omega : 0 < (charAt a 1).toInt - (charAt b 1).toInt)]
    simp
    omega

theorem sign_sub_ne {first second : BitVec 8} (injective : Function.Injective value) (differ : first ≠ second) :
    (value first - value second).sign ≠ 0 := by
  intro zero
  have equal := Int.sign_eq_zero_iff_zero.mp zero
  exact differ (injective (by omega))

/-- `strcmp` comes back without a read behind a terminator, whatever it answers. -/
theorem strcmp_lengths (clean : 0 ∉ a) (clean' : 0 ∉ b) (differ : a.length ≠ b.length) :
    strcmp (a ++ [0]) (b ++ [0]) = .ok (BitVec.ofNat 32 (wrapSub a.length b.length)).toInt := by
  rw [strcmp, strlen_text clean, strlen_text clean', ok_bind, ok_bind, if_pos differ]
  rfl

theorem strcmp_strncmp (clean : 0 ∉ a) (clean' : 0 ∉ b) (equal : a.length = b.length) :
    strcmp (a ++ [0]) (b ++ [0]) = strncmp (a ++ [0]) (b ++ [0]) a.length := by
  rw [strcmp, strlen_text clean, strlen_text clean', ok_bind, ok_bind, if_neg (not_not.mpr equal)]

/-- A difference of strings of one length is at a character. -/
theorem FirstDifference.within {i : Nat} (clean : 0 ∉ a) (clean' : 0 ∉ b) (first : FirstDifference a b i)
    (equal : a.length = b.length) : i < a.length := by
  have inside := (first.inside clean clean').1
  by_contra last
  have ends : i = a.length := by omega
  have differ := first.differ
  rw [ends, charAt_length, equal, charAt_length] at differ
  exact differ rfl

theorem strcmp_reads (clean : 0 ∉ a) (clean' : 0 ∉ b) : (strcmp (a ++ [0]) (b ++ [0])).isOk := by
  by_cases equal : a.length = b.length
  · rw [strcmp_strncmp clean clean' equal]
    rcases same_or_differ a b a.length with same | differ
    · rw [strncmp_same clean same]
      rfl
    · obtain ⟨i, inside, first⟩ := differ
      rw [strncmp_judge clean clean' inside first, judge_verdict (List.length_pos_iff.mp (by omega))
        (List.length_pos_iff.mp (by omega))]
      rfl
  · rw [strcmp_lengths clean clean' equal]
    rfl

/-- Where strings of one length differ the two comparisons give one answer. -/
theorem strcmp_judge (clean : 0 ∉ a) (clean' : 0 ∉ b) {i : Nat} (first : FirstDifference a b i)
    (equal : a.length = b.length) : strcmp (a ++ [0]) (b ++ [0]) = judge a b := by
  rw [strcmp_strncmp clean clean' equal, strncmp_judge clean clean' (first.within clean clean' equal) first]

theorem Lexicographic.wellJudged (clean : 0 ∉ a) (clean' : 0 ∉ b) {n : Nat}
    (holds : Lexicographic value a b n) : WellJudged value a b n := by
  have second (i : Nat) (inside : i < n) (first : FirstDifference a b i) : a ≠ [] ∧ b ≠ [] ∧
      strncmp (a ++ [0]) (b ++ [0]) n = .ok (verdict a b) ∧ (verdict a b).sign =
        (value (charAt a i) - value (charAt b i)).sign ∧
      ((charAt a 1).toInt - (charAt b 1).toInt).sign = (value (charAt a i) - value (charAt b i)).sign := by
    have ran := strncmp_judge clean clean' inside first
    obtain ⟨order, judged⟩ := exists_of_isOk _ holds.reads.1
    obtain ⟨some', some'', -⟩ := judge_ok (ran.symm.trans judged)
    have forth := ran.trans (judge_verdict some' some'')
    have back := (strncmp_judge clean' clean inside first.symm).trans (judge_verdict some'' some')
    have sign := holds.sign i inside first _ forth
    have swap := holds.swap _ _ forth back
    rw [sign] at swap
    exact ⟨some', some'', forth, sign, (verdict_sign.mp ⟨sign, swap⟩).2⟩
  constructor
  · intro i inside first
    obtain ⟨some', some'', -, -, compared⟩ := second i inside first
    exact ⟨some', some'', compared⟩
  · intro short short' differ i first
    have inside := (first.inside clean clean').1
    obtain ⟨-, -, ran, sign, -⟩ := second i (by omega) first
    rw [holds.whole short short' _ _ (strcmp_lengths clean clean' differ) ran, sign]

theorem WellJudged.lexicographic (injective : Function.Injective value) (clean : 0 ∉ a) (clean' : 0 ∉ b) {n : Nat}
    (judged : WellJudged value a b n) : Lexicographic value a b n := by
  rcases same_or_differ a b n with same | differ
  · have ran := strncmp_same clean same
    have back := strncmp_same clean' fun j inside => (same j inside).symm
    refine ⟨⟨by rw [ran]; rfl, strcmp_reads clean clean'⟩, ⟨fun _ => same, fun _ => ran⟩, ?_, ?_, ?_⟩
    · intro i inside first
      exact absurd (same i inside) first.differ
    · intro order other forth ran'
      obtain rfl := Except.ok.inj (ran.symm.trans forth)
      obtain rfl := Except.ok.inj (back.symm.trans ran')
      rfl
    · intro short short' order other whole ran'
      obtain rfl := Except.ok.inj (ran.symm.trans ran')
      have ends := same b.length short'
      rw [charAt_length] at ends
      have inside := same_inside clean' (fun j before => (same j (by omega)).symm) (Nat.le_refl b.length)
      have equal := charAt_zero clean inside ends
      rw [strcmp_strncmp clean clean' equal.symm, strncmp_same clean fun j before => same j (by omega)] at whole
      obtain rfl := Except.ok.inj whole
      rfl
  · obtain ⟨i, inside, first⟩ := differ
    obtain ⟨some', some'', compared⟩ := judged.second i inside first
    have sign := verdict_sign.mpr ⟨sign_sub_ne injective first.differ, compared⟩
    have ran := (strncmp_judge clean clean' inside first).trans (judge_verdict some' some'')
    have back := (strncmp_judge clean' clean inside first.symm).trans (judge_verdict some'' some')
    refine ⟨⟨by rw [ran]; rfl, strcmp_reads clean clean'⟩,
      ⟨fun zero => ?_, fun same => absurd (same i inside) first.differ⟩, ?_, ?_, ?_⟩
    · have none := sign.1
      rw [Except.ok.inj (ran.symm.trans zero)] at none
      exact absurd none.symm (sign_sub_ne injective first.differ)
    · intro other inside' first' order forth
      obtain rfl := Except.ok.inj (ran.symm.trans forth)
      have same : other = i := by
        by_contra apart
        rcases Nat.lt_or_gt_of_ne apart with early | late
        · exact first'.differ (first.same other early)
        · exact first.differ (first'.same i late)
      rw [same, sign.1]
    · intro order other forth ran'
      obtain rfl := Except.ok.inj (ran.symm.trans forth)
      obtain rfl := Except.ok.inj (back.symm.trans ran')
      rw [sign.1, sign.2]
    · intro short short' order other whole ran'
      obtain rfl := Except.ok.inj (ran.symm.trans ran')
      by_cases equal : a.length = b.length
      · rw [strcmp_judge clean clean' first equal, judge_verdict some' some''] at whole
        rw [Except.ok.inj whole]
      · rw [strcmp_lengths clean clean' equal] at whole
        obtain rfl := Except.ok.inj whole
        rw [sign.1, judged.lengths short short' equal i first]

/-- The comparisons are an order of strings just where the second characters and
the lengths are in the order of the first characters that differ. -/
theorem strncmp_lexicographic_iff (value : BitVec 8 → Int) (injective : Function.Injective value)
    (a b : List (BitVec 8)) (clean : 0 ∉ a) (clean' : 0 ∉ b) (n : Nat) :
    Lexicographic value a b n ↔ WellJudged value a b n :=
  ⟨fun holds => holds.wellJudged clean clean', fun judged => judged.lexicographic injective clean clean'⟩

theorem strncmp_second : Lexicographic BitVec.toInt [97, 98] [97, 99] 3 ↔ WellJudged BitVec.toInt [97, 98] [97, 99] 3 :=
  strncmp_lexicographic_iff BitVec.toInt (fun _ _ => BitVec.eq_of_toInt_eq) [97, 98] [97, 99] (by decide) (by decide) 3

/-- `"aab"` and `"aac"` are told apart by their second characters, which are the same,
and so each comes out behind the other. -/
theorem strncmp_unordered : ¬ ∀ (a b : List (BitVec 8)) (n : Nat), 0 ∉ a → 0 ∉ b →
    Lexicographic BitVec.toInt a b n := by
  intro orders
  have swap := (orders [97, 97, 98] [97, 97, 99] 3 (by decide) (by decide)).swap 1 1 rfl rfl
  exact absurd swap (by decide)

end Navy
