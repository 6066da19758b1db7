import Navy.Pmm

/-! What the bitmap operations do to the bits and to the page counter. The two
range loops differ only in the value they write. -/

namespace Navy.Pmm
open Outcome

/-- Page `page` is available to the allocator. -/
def Free (pmm : Pmm) (page : Nat) : Prop := pmm.bitmap.bit page = false

/-- `after` is `before` with `count` pages from `first` set to `value` and
counted accordingly. -/
structure Rewritten (value : Bool) (first count : Nat) (before after : Pmm) : Prop where
  size : after.bitmapSize = before.bitmapSize
  bits : ∀ page, after.bitmap.bit page =
    if first ≤ page ∧ page < first + count then value else before.bitmap.bit page
  counter : wrap (after.usablePages + if value then count else 0) =
    wrap (before.usablePages + if value then 0 else count)
  word : before.usablePages < 2 ^ 64 → after.usablePages < 2 ^ 64

theorem Rewritten.refl (value : Bool) (first : Nat) (pmm : Pmm) : Rewritten value first 0 pmm pmm := by
  refine ⟨rfl, fun page => (if_neg (by omega)).symm, by cases value <;> rfl, id⟩

theorem Rewritten.extend {value : Bool} {first count : Nat} {before middle after : Pmm}
    (start : Rewritten value first count before middle)
    (last : Rewritten value (first + count) 1 middle after) :
    Rewritten value first (count + 1) before after := by
  refine ⟨last.size.trans start.size, ?_, ?_, fun small => last.word (start.word small)⟩
  · intro page
    rw [last.bits, start.bits]
    have either : (first ≤ page ∧ page < first + (count + 1)) ↔
        (first + count ≤ page ∧ page < first + count + 1) ∨ (first ≤ page ∧ page < first + count) := by omega
    by_cases recent : first + count ≤ page ∧ page < first + count + 1
    · rw [if_pos recent, if_pos (either.mpr (.inl recent))]
    · simp only [recent, either, false_or, if_false]
  · have first := start.counter
    have next := last.counter
    cases value <;> simp only [wrap, if_true, Bool.false_eq_true, if_false] at first next ⊢ <;> omega

theorem isSetPmm_eq (pmm : Pmm) (index : Nat) : isSetPmm pmm index = pmm.bitmap.bit index := by
  have inside : index % 8 < 8 := Nat.mod_lt index (by decide)
  have mask : (1#8 <<< (index % 8)) = BitVec.twoPow 8 (index % 8) := by
    rw [BitVec.twoPow]
  simp only [isSetPmm, Bytes.bit, mask, BitVec.and_twoPow]
  cases (pmm.bitmap (index / 8)).getLsbD (index % 8) with
  | false => simp
  | true =>
    have nonzero : BitVec.twoPow 8 (index % 8) ≠ 0#8 := by
      intro zero
      have := congrArg (BitVec.getLsbD · (index % 8)) zero
      simp [inside] at this
    simpa using nonzero

theorem bitmapUsed_rewrites (pmm : Pmm) (index : Nat) (inside : index < 8 * pmm.bitmapSize) :
    ∃ after, bitmapUsed pmm index = .ok after ∧ after.lastPage = pmm.lastPage ∧ Rewritten true index 1 pmm after := by
  have byte : index / 8 < pmm.bitmapSize := by omega
  refine ⟨{ pmm with bitmap := pmm.bitmap.setBit index, usablePages := wrapSub pmm.usablePages 1 }, ?_, rfl,
    rfl, ?_, ?_, ?_⟩
  · simp only [bitmapUsed, check_true _ byte]
    rfl
  · intro page
    rw [Bytes.bit_setBit]
    by_cases same : page = index
    · simp [same]
    · rw [if_neg (by omega)]
      simp [same]
  · simp only [wrapSub, wrap, if_true]
    omega
  · intro _
    exact Nat.mod_lt _ (by decide)

theorem bitmapUnused_rewrites (pmm : Pmm) (index : Nat) (inside : index < 8 * pmm.bitmapSize) :
    ∃ after, bitmapUnused pmm index = .ok after ∧ after.lastPage = pmm.lastPage ∧
      Rewritten false index 1 pmm after := by
  have byte : index / 8 < pmm.bitmapSize := by omega
  refine ⟨{ pmm with bitmap := pmm.bitmap.clearBit index, usablePages := wrap (pmm.usablePages + 1) }, ?_, rfl,
    rfl, ?_, ?_, ?_⟩
  · simp only [bitmapUnused, check_true _ byte]
    rfl
  · intro page
    rw [Bytes.bit_clearBit]
    by_cases same : page = index
    · simp [same]
    · rw [if_neg (by omega)]
      simp [same]
  · simp only [wrap, Bool.false_eq_true, if_false]
    omega
  · intro _
    exact Nat.mod_lt _ (by decide)

/-- A loop over pages inside the bitmap runs to its end. -/
theorem pmmRange_rewrites {touch : Pmm → Nat → Checked Pmm} {value : Bool}
    (each : ∀ pmm index, index < 8 * pmm.bitmapSize →
      ∃ after, touch pmm index = .ok after ∧ after.lastPage = pmm.lastPage ∧ Rewritten value index 1 pmm after)
    (pmm : Pmm) (range : Range) (small : 8 * pmm.bitmapSize ≤ 2 ^ 64)
    (inside : range.base / 4096 + range.length / 4096 ≤ 8 * pmm.bitmapSize) :
    ∃ after, pmmRange touch pmm range = .ok after ∧ after.lastPage = pmm.lastPage ∧
      Rewritten value (range.base / 4096) (range.length / 4096) pmm after := by
  simp only [pmmRange, pageSize]
  generalize range.length / 4096 = count at inside
  induction count with
  | zero => exact ⟨pmm, rfl, rfl, .refl _ _ _⟩
  | succ count ih =>
    obtain ⟨middle, ran, cursor, start⟩ := ih (by omega)
    have index : wrap (range.base / 4096 + count) = range.base / 4096 + count := wrap_of_lt (by omega)
    obtain ⟨after, step, kept, last⟩ := each middle (range.base / 4096 + count) (by rw [start.size]; omega)
    refine ⟨after, ?_, kept.trans cursor, start.extend last⟩
    rw [List.range_succ, List.foldlM_append, ran]
    simp only [bind, Except.bind, List.foldlM_cons, List.foldlM_nil, index, step, pure, Except.pure]

theorem pmmRangeUsed_rewrites (pmm : Pmm) (range : Range) (small : 8 * pmm.bitmapSize ≤ 2 ^ 64)
    (inside : range.base / 4096 + range.length / 4096 ≤ 8 * pmm.bitmapSize) :
    ∃ after, pmmRangeUsed pmm range = .ok after ∧ after.lastPage = pmm.lastPage ∧
      Rewritten true (range.base / 4096) (range.length / 4096) pmm after :=
  pmmRange_rewrites bitmapUsed_rewrites pmm range small inside

theorem pmmRangeUnused_rewrites (pmm : Pmm) (range : Range) (small : 8 * pmm.bitmapSize ≤ 2 ^ 64)
    (inside : range.base / 4096 + range.length / 4096 ≤ 8 * pmm.bitmapSize) :
    ∃ after, pmmRangeUnused pmm range = .ok after ∧ after.lastPage = pmm.lastPage ∧
      Rewritten false (range.base / 4096) (range.length / 4096) pmm after :=
  pmmRange_rewrites bitmapUnused_rewrites pmm range small inside

theorem pmmRange_size {touch : Pmm → Nat → Checked Pmm} {pmm after : Pmm} {range : Range}
    (each : ∀ pmm index after, touch pmm index = .ok after → after.bitmapSize = pmm.bitmapSize)
    (ran : pmmRange touch pmm range = .ok after) : after.bitmapSize = pmm.bitmapSize := by
  have step (state : Pmm) (index : Nat) (next : Pmm) (_ : index ∈ List.range (range.length / pageSize))
      (kept : state.bitmapSize = pmm.bitmapSize)
        (turn : touch state (wrap (range.base / pageSize + index)) = .ok next) :
      next.bitmapSize = pmm.bitmapSize := (each _ _ _ turn).trans kept
  exact foldlM_keeps step rfl ran

theorem bitmapUnused_size (pmm : Pmm) (index : Nat) (after : Pmm) (ran : bitmapUnused pmm index = .ok after) :
    after.bitmapSize = pmm.bitmapSize := by
  obtain ⟨⟨⟩, -, rest⟩ := bind_ok ran
  obtain rfl := Except.ok.inj rest
  rfl

theorem bitmapUsed_size (pmm : Pmm) (index : Nat) (after : Pmm) (ran : bitmapUsed pmm index = .ok after) :
    after.bitmapSize = pmm.bitmapSize := by
  obtain ⟨⟨⟩, -, rest⟩ := bind_ok ran
  obtain rfl := Except.ok.inj rest
  rfl

end Navy.Pmm
