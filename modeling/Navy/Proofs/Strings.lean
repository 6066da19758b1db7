import Navy.Strings

/-! Texts in the objects that hold them: the bytes in front of the first
terminator, and what the string functions make of two texts. -/

namespace Navy
open Outcome

theorem textOf_clean (bytes : List (BitVec 8)) : 0 ∉ textOf bytes := by
  induction bytes with
  | nil => exact List.not_mem_nil
  | cons byte rest ih =>
    unfold textOf
    split
    next => exact List.not_mem_nil
    next nonzero => exact fun member => (List.mem_cons.mp member).elim (fun same => nonzero same.symm) ih

theorem textOf_split {bytes : List (BitVec 8)} (terminated : 0 ∈ bytes) :
    ∃ rest, bytes = textOf bytes ++ 0 :: rest := by
  induction bytes with
  | nil => cases terminated
  | cons byte rest ih =>
    unfold textOf
    by_cases zero : byte = 0
    · exact ⟨rest, by rw [if_pos zero, zero]; rfl⟩
    · obtain ⟨others, split⟩ := ih ((List.mem_cons.mp terminated).resolve_left fun same => zero same.symm)
      exact ⟨others, by rw [if_neg zero, List.cons_append, ← split]⟩

theorem strlen_fails {s : List (BitVec 8)} {fault : Fault} (ran : strlen s = .error fault) : fault = .outOfBounds := by
  induction s with
  | nil =>
    cases ran
    rfl
  | cons byte rest ih =>
    unfold strlen at ran
    split at ran
    next => cases ran
    next =>
      cases inner : strlen rest with
      | ok length =>
        rw [inner] at ran
        cases ran
      | error other =>
        rw [inner] at ran
        cases ran
        exact ih inner

theorem strlen_terminator {s : List (BitVec 8)} {place : Nat} (terminator : s[place]? = some 0) :
    ∃ length ≤ place, strlen s = .ok length := by
  induction s generalizing place with
  | nil => cases terminator
  | cons byte rest ih =>
    unfold strlen
    by_cases zero : byte = 0
    · exact ⟨0, Nat.zero_le _, if_pos zero⟩
    · rw [if_neg zero]
      cases place with
      | zero => exact absurd (Option.some.inj terminator) zero
      | succ place =>
        obtain ⟨length, before, found⟩ := ih (by simpa using terminator)
        refine ⟨length + 1, Nat.succ_le_succ before, ?_⟩
        rw [found]
        rfl

theorem strlen_found {s : List (BitVec 8)} {length : Nat} (ran : strlen s = .ok length) : s[length]? = some 0 := by
  induction s generalizing length with
  | nil => cases ran
  | cons byte rest ih =>
    unfold strlen at ran
    split at ran
    next zero =>
      obtain rfl := Except.ok.inj ran
      rw [zero]
      rfl
    next =>
      obtain ⟨inner, found, rest⟩ := bind_ok ran
      obtain rfl := Except.ok.inj rest
      simpa using ih found

theorem strlen_le {s : List (BitVec 8)} {length : Nat} (ran : strlen s = .ok length) : length < s.length :=
  (List.getElem?_eq_some_iff.mp (strlen_found ran)).1

/-- `strcmp` takes the two for the same: they are, or their lengths differ by a
multiple of what an `int` can hold. -/
def Alike (first second : List (BitVec 8)) : Prop :=
  first = second ∨ first.length ≠ second.length ∧ first.length % 2 ^ 32 = second.length % 2 ^ 32

variable {first second rest others : List (BitVec 8)}

theorem strlen_text (clean : 0 ∉ first) : strlen (first ++ 0 :: rest) = .ok first.length := by
  induction first with
  | nil => rfl
  | cons byte text ih =>
    obtain ⟨nonzero, clean⟩ := not_or.mp (mt List.mem_cons.mpr clean)
    rw [List.cons_append, strlen, if_neg fun zero => nonzero zero.symm, ih clean]
    rfl

theorem strlen_endless (clean : 0 ∉ first) : strlen first = .error .outOfBounds := by
  induction first with
  | nil => rfl
  | cons byte text ih =>
    obtain ⟨nonzero, clean⟩ := not_or.mp (mt List.mem_cons.mpr clean)
    rw [strlen, if_neg fun zero => nonzero zero.symm, ih clean]
    rfl

private theorem byteAt_text {i : Nat} (inside : i < first.length) : byteAt (first ++ 0 :: rest) i = .ok first[i] := by
  rw [byteAt, List.getElem?_append_left inside, List.getElem?_eq_getElem inside]

private theorem byteAt_some {s : List (BitVec 8)} {i : Nat} (inside : i < s.length) :
    ∃ byte, byteAt s i = .ok byte := by
  rw [byteAt, List.getElem?_eq_getElem inside]
  exact ⟨_, rfl⟩

/-- Between texts of one length the comparison finds equality. -/
theorem strncmpFrom_text (clean : 0 ∉ first) (equal : first.length = second.length) {remaining i : Nat}
    (left : i + remaining = first.length) :
    ∃ order, strncmpFrom (first ++ 0 :: rest) (second ++ 0 :: others) remaining i = .ok order ∧
      (order = 0 ↔ first.drop i = second.drop i) := by
  induction remaining generalizing i with
  | zero =>
    refine ⟨0, rfl, fun _ => ?_, fun _ => rfl⟩
    rw [List.drop_eq_nil_of_le (by omega), List.drop_eq_nil_of_le (by omega)]
  | succ remaining ih =>
    have inside : i < first.length := by omega
    have inside' : i < second.length := by omega
    unfold strncmpFrom
    rw [byteAt_text inside, byteAt_text inside', ok_bind, ok_bind, List.drop_eq_getElem_cons inside,
      List.drop_eq_getElem_cons inside']
    by_cases same : first[i] = second[i]
    · rw [if_neg (not_not.mpr same), if_neg fun zero : first[i] = 0 => clean (zero ▸ List.getElem_mem inside)]
      obtain ⟨order, ran, meaning⟩ := @ih (i + 1) (by omega)
      refine ⟨order, ran, ?_⟩
      rw [meaning, same, List.cons_inj_right]
    · rw [if_pos same]
      obtain ⟨byte1, read1⟩ := byteAt_some (show 1 < (first ++ 0 :: rest).length by
        rw [List.length_append, List.length_cons]; omega)
      obtain ⟨byte2, read2⟩ := byteAt_some (show 1 < (second ++ 0 :: others).length by
        rw [List.length_append, List.length_cons]; omega)
      rw [read1, read2, ok_bind, ok_bind]
      refine ⟨_, rfl, fun zero => ?_, fun equal => absurd (List.cons.inj equal).1 same⟩
      split at zero <;> cases zero

theorem strcmp_text (clean : 0 ∉ first) (clean' : 0 ∉ second) :
    ∃ order, strcmp (first ++ 0 :: rest) (second ++ 0 :: others) = .ok order ∧ (order = 0 ↔ Alike first second) := by
  unfold strcmp
  rw [strlen_text clean, strlen_text clean', ok_bind, ok_bind]
  by_cases equal : first.length = second.length
  · rw [if_neg (not_not.mpr equal)]
    obtain ⟨order, ran, meaning⟩ := @strncmpFrom_text first second rest others clean equal first.length 0
      (Nat.zero_add _)
    refine ⟨order, ran, ?_⟩
    rw [meaning, List.drop_zero, List.drop_zero]
    exact ⟨.inl, fun alike => alike.resolve_right fun other => other.1 equal⟩
  · rw [if_pos equal]
    refine ⟨_, rfl, ?_⟩
    have zero : (BitVec.ofNat 32 (wrapSub first.length second.length)).toInt = 0 ↔
        wrapSub first.length second.length % 2 ^ 32 = 0 := by
      rw [← BitVec.toInt_zero (w := 32), BitVec.toInt_inj, ← BitVec.toNat_inj, BitVec.toNat_ofNat]
      rfl
    rw [zero]
    have differ : first ≠ second := fun same => equal (congrArg List.length same)
    simp only [Alike, differ, false_or, wrapSub, wrap]
    omega

end Navy
