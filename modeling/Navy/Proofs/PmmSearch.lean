import Navy.Proofs.PmmBits

/-! The next-fit scan. The loop keeps one candidate, restarted behind every used
page; the invariant also remembers why no earlier start could have worked. -/

namespace Navy.Pmm

/-- The size condition under which no page address or bit index wraps. -/
def Sized (pmm : Pmm) : Prop := 8 * pmm.bitmapSize * pageSize < 2 ^ 64

theorem Sized.small {pmm : Pmm} (sized : pmm.Sized) : pmm.bitmapSize < 2 ^ 49 := by
  simp only [Sized, pageSize] at sized
  rw [Nat.mul_right_comm] at sized
  omega

/-- A start from which `amount` bytes of free pages do not fit below `limit`. -/
def Blocked (pmm : Pmm) (amount limit start : Nat) : Prop :=
  ∃ page, start ≤ page ∧ page < limit ∧ (page - start) * 4096 < amount ∧ ¬ pmm.Free page

/-- `range` is the candidate after the pages `start ≤ page < current`. -/
structure Candidate (pmm : Pmm) (amount start current : Nat) (range : Range) (first : Nat) : Prop where
  low : start ≤ first
  high : first ≤ current
  length : range.length = (current - first) * 4096
  base : range.length ≠ 0 → range.base = first * 4096
  free : ∀ page, first ≤ page → page < current → pmm.Free page
  short : range.length < amount + 4096
  earlier : ∀ other, start ≤ other → other < first → pmm.Blocked amount first other

private theorem Candidate.grow {pmm : Pmm} {amount start current : Nat} {range : Range} {first : Nat}
    (candidate : Candidate pmm amount start current range first) (needed : range.length < amount)
    (free : pmm.Free current) (small : current < 2 ^ 49) :
    Candidate pmm amount start (current + 1)
      ⟨if range.length = 0 then wrap (current * pageSize) else range.base, wrap (range.length + pageSize)⟩ first := by
  have length := candidate.length
  have low := candidate.low
  have high := candidate.high
  have grown : wrap (range.length + pageSize) = (current + 1 - first) * 4096 := by
    simp only [wrap, pageSize]; omega
  refine ⟨low, by omega, grown, ?_, ?_, ?_, candidate.earlier⟩
  · intro _
    by_cases empty : range.length = 0
    · have : current = first := by omega
      simp only [empty, if_true, this, wrap, pageSize]
      omega
    · simpa only [empty, if_false] using candidate.base empty
  · intro page inside before
    by_cases last : page = current
    · exact last ▸ free
    · exact candidate.free page inside (by omega)
  · show wrap (range.length + pageSize) < amount + 4096
    rw [grown]; omega

private theorem Candidate.restart {pmm : Pmm} {amount start current : Nat} {range : Range} {first : Nat}
    (candidate : Candidate pmm amount start current range first) (needed : range.length < amount)
    (used : ¬ pmm.Free current) :
    Candidate pmm amount start (current + 1) ⟨range.base, 0⟩ (current + 1) := by
  have low := candidate.low
  have high := candidate.high
  have length := candidate.length
  refine ⟨by omega, Nat.le_refl _, by simp, fun nonzero => absurd rfl nonzero, fun page _ _ => by omega,
    by show 0 < amount + 4096; omega, ?_⟩
  intro other inside before
  by_cases older : other < first
  · obtain ⟨page, after, below, near, taken⟩ := candidate.earlier other inside older
    exact ⟨page, after, by omega, near, taken⟩
  · exact ⟨current, by omega, by omega, by omega, used⟩

theorem findLoop_candidate (pmm : Pmm) (amount start : Nat) (remaining current : Nat) (range : Range) (first : Nat)
    (small : current + remaining < 2 ^ 49)
    (candidate : Candidate pmm amount start current range first) :
    ∃ last first, last ≤ current + remaining ∧
      Candidate pmm amount start last (findLoop pmm amount remaining current range) first ∧
      (amount ≤ (findLoop pmm amount remaining current range).length ∨ last = current + remaining) := by
  induction remaining generalizing current range first with
  | zero => exact ⟨current, first, Nat.le_refl _, candidate, .inr rfl⟩
  | succ remaining ih =>
    unfold findLoop
    by_cases needed : range.length < amount
    · simp only [needed, if_true, isSetPmm_eq]
      cases seen : pmm.bitmap.bit current with
      | false =>
        obtain ⟨last, first, below, found, done⟩ := ih (current + 1) _ first (by omega)
          (candidate.grow needed seen (by omega))
        exact ⟨last, first, by omega, found, done.imp_right (by omega)⟩
      | true =>
        obtain ⟨last, first, below, found, done⟩ := ih (current + 1) _ (current + 1) (by omega)
          (candidate.restart needed (by simp [Free, seen]))
        exact ⟨last, first, by omega, found, done.imp_right (by omega)⟩
    · simp only [needed, if_false]
      exact ⟨current, first, by omega, candidate, .inl (by omega)⟩

/-- `range` is the whole-page run a next-fit search for `amount` bytes settles on. -/
structure Fit (pmm : Pmm) (amount : Nat) (range : Range) : Prop where
  base : range.base % 4096 = 0
  length : range.length % 4096 = 0
  bound : range.base / 4096 + range.length / 4096 ≤ pmm.bitmapSize
  free : ∀ page ∈ range.pages, pmm.Free page
  enough : amount ≤ range.length
  tight : range.length < amount + 4096
  low : 0 < amount → pmm.lastPage ≤ range.base / 4096
  lowest : ∀ start, pmm.lastPage ≤ start → start < range.base / 4096 → pmm.Blocked amount (range.base / 4096) start

/-- A request of zero bytes is met by the empty range at address zero. -/
theorem Fit.nothing (pmm : Pmm) : Fit pmm 0 ⟨0, 0⟩ := by
  refine ⟨rfl, rfl, Nat.zero_le _, ?_, Nat.le_refl _, by decide, fun nonzero => absurd nonzero (by decide), ?_⟩
  · intro page member
    have := Range.mem_pages.mp member
    simp only at this
    omega
  · intro start _ before
    simp only at before
    omega

private theorem Candidate.fit {pmm : Pmm} {amount last : Nat} {range : Range} {first : Nat}
    (candidate : Candidate pmm amount pmm.lastPage last range first) (below : last ≤ pmm.bitmapSize)
    (enough : amount ≤ range.length) (some : range.length ≠ 0) : Fit pmm amount range := by
  have base := candidate.base some
  have length := candidate.length
  have low := candidate.low
  have start : range.base / 4096 = first := by omega
  refine ⟨by omega, by omega, by omega, ?_, enough, candidate.short, fun _ => by omega, ?_⟩
  · intro page member
    have inside := Range.mem_pages.mp member
    exact candidate.free page (by omega) (by omega)
  · rw [start]
    exact candidate.earlier

private theorem Candidate.initial (pmm : Pmm) (amount start : Nat) :
    Candidate pmm amount start start ⟨0, 0⟩ start :=
  ⟨Nat.le_refl _, Nat.le_refl _, by simp, fun nonzero => absurd rfl nonzero, fun page _ _ => by omega,
    Nat.lt_add_left _ (by decide), fun other _ _ => by omega⟩

private theorem findLoop_nothing (pmm : Pmm) (remaining current : Nat) :
    findLoop pmm 0 remaining current ⟨0, 0⟩ = ⟨0, 0⟩ := by
  cases remaining <;> rfl

theorem findLoop_fit (pmm : Pmm) (amount : Nat) (sized : pmm.Sized)
    (enough : amount ≤ (findLoop pmm amount (pmm.bitmapSize - pmm.lastPage) pmm.lastPage ⟨0, 0⟩).length) :
    Fit pmm amount (findLoop pmm amount (pmm.bitmapSize - pmm.lastPage) pmm.lastPage ⟨0, 0⟩) := by
  have small := sized.small
  by_cases zero : amount = 0
  · subst amount
    rw [findLoop_nothing]
    exact Fit.nothing pmm
  · by_cases ahead : pmm.lastPage ≤ pmm.bitmapSize
    · obtain ⟨last, first, below, found, _⟩ := findLoop_candidate pmm amount pmm.lastPage
        (pmm.bitmapSize - pmm.lastPage) pmm.lastPage ⟨0, 0⟩ pmm.lastPage (by omega) (.initial pmm amount _)
      exact found.fit (by omega) enough (by omega)
    · rw [show pmm.bitmapSize - pmm.lastPage = 0 by omega] at enough
      simp only [findLoop] at enough
      omega

/-- When the scan comes back short, no start from the cursor on has room. -/
theorem findLoop_blocked (pmm : Pmm) (amount : Nat) (sized : pmm.Sized)
    (short : (findLoop pmm amount (pmm.bitmapSize - pmm.lastPage) pmm.lastPage ⟨0, 0⟩).length < amount)
    (start : Nat) (inside : pmm.lastPage ≤ start) (fits : start * 4096 + amount ≤ pmm.bitmapSize * 4096) :
    pmm.Blocked amount pmm.bitmapSize start := by
  have small := sized.small
  obtain ⟨last, first, below, found, done⟩ := findLoop_candidate pmm amount pmm.lastPage
    (pmm.bitmapSize - pmm.lastPage) pmm.lastPage ⟨0, 0⟩ pmm.lastPage (by omega) (.initial pmm amount _)
  have length := found.length
  have high := found.high
  by_cases before : start < first
  · obtain ⟨page, after, under, near, taken⟩ := found.earlier start inside before
    exact ⟨page, after, by omega, near, taken⟩
  · omega

/-- The pages of `range`, all free before and below the scan bound, are the only
ones `after` has marked. -/
structure Taken (before : Pmm) (range : Range) (after : Pmm) : Prop where
  base : range.base % 4096 = 0
  length : range.length % 4096 = 0
  bound : range.base / 4096 + range.length / 4096 ≤ before.bitmapSize
  free : ∀ page ∈ range.pages, before.Free page
  marked : Rewritten true (range.base / 4096) (range.length / 4096) before after

theorem Taken.nothing (pmm : Pmm) : Taken pmm ⟨0, 0⟩ pmm := by
  have empty := Fit.nothing pmm
  exact ⟨empty.base, empty.length, empty.bound, empty.free, .refl _ _ _⟩

theorem pmmFindPages_unfold (pmm : Pmm) (amount : Nat) (sized : pmm.Sized) :
    (∃ range after, Fit pmm amount range ∧ Taken pmm range after ∧
      after.lastPage = range.base / 4096 + range.length / 4096 ∧
      ∀ fuel, pmmFindPages (fuel + 1) pmm amount = .ok (range, after)) ∨
    ((∀ start, pmm.lastPage ≤ start → start * 4096 + amount ≤ pmm.bitmapSize * 4096 →
        pmm.Blocked amount pmm.bitmapSize start) ∧
      ∀ fuel, pmmFindPages (fuel + 1) pmm amount =
        if pmm.lastPage = 0 then .ok (⟨0, 0⟩, pmm) else pmmFindPages fuel pmm amount) := by
  have small := sized.small
  by_cases enough : amount ≤ (findLoop pmm amount (pmm.bitmapSize - pmm.lastPage) pmm.lastPage ⟨0, 0⟩).length
  · have fit := findLoop_fit pmm amount sized enough
    generalize seen : findLoop pmm amount (pmm.bitmapSize - pmm.lastPage) pmm.lastPage ⟨0, 0⟩ = range at enough fit
    have base := fit.base
    have length := fit.length
    have bound := fit.bound
    have cursor : wrap (range.base + range.length) / pageSize = range.base / 4096 + range.length / 4096 := by
      simp only [wrap, pageSize]; omega
    obtain ⟨after, ran, kept, marked⟩ := pmmRangeUsed_rewrites
      { pmm with lastPage := range.base / 4096 + range.length / 4096 } range
      (by show 8 * pmm.bitmapSize ≤ 2 ^ 64; omega) (by show _ ≤ 8 * pmm.bitmapSize; omega)
    refine .inl ⟨range, after, fit, ⟨base, length, bound, fit.free, ?_⟩, kept, ?_⟩
    · exact ⟨marked.size, marked.bits, marked.counter, marked.word⟩
    · intro fuel
      simp only [pmmFindPages, seen, enough, if_true, cursor, ran]
      rfl
  · refine .inr ⟨findLoop_blocked pmm amount sized (by omega), ?_⟩
    intro fuel
    simp only [pmmFindPages, enough, if_false]
    rfl

/-- More activations of the recursive call never change what a search does: a
retry repeats the same scan from the same cursor. -/
theorem pmmFindPages_fuel (pmm : Pmm) (amount : Nat) (sized : pmm.Sized) (fuel : Nat) :
    pmmFindPages (fuel + 1) pmm amount = pmmFindPages searchFuel pmm amount := by
  induction fuel with
  | zero => rfl
  | succ fuel ih =>
    rcases pmmFindPages_unfold pmm amount sized with ⟨range, after, _, _, _, ran⟩ | ⟨_, step⟩
    · rw [ran, searchFuel, ran]
    · rw [step, ih]
      split
      next first => rw [searchFuel, step, if_pos first]
      next => rfl

/-- A search that returns either found a next fit or left the allocator alone. -/
theorem pmmFindPages_ok {pmm after : Pmm} {amount fuel : Nat} {range : Range} (sized : pmm.Sized)
    (ran : pmmFindPages fuel pmm amount = .ok (range, after)) :
    (Fit pmm amount range ∧ Taken pmm range after ∧ after.lastPage = range.base / 4096 + range.length / 4096) ∨
    (range = ⟨0, 0⟩ ∧ after = pmm ∧ pmm.lastPage = 0 ∧
      ∀ start, start * 4096 + amount ≤ pmm.bitmapSize * 4096 → pmm.Blocked amount pmm.bitmapSize start) := by
  induction fuel with
  | zero => cases ran
  | succ fuel ih =>
    rcases pmmFindPages_unfold pmm amount sized with ⟨_, _, fit, taken, cursor, same⟩ | ⟨blocked, step⟩
    · rw [same] at ran
      cases ran
      exact .inl ⟨fit, taken, cursor⟩
    · rw [step] at ran
      split at ran
      next first =>
        cases ran
        exact .inr ⟨rfl, rfl, first, fun start => blocked start (by omega)⟩
      next => exact ih ran

theorem pmmAlloc_ok {pmm after : Pmm} {amount : Nat} {range : Range} (sized : pmm.Sized)
    (ran : pmmAlloc pmm amount = .ok (range, after)) :
    Taken pmm range after ∧ (amount ≤ range.length ∨ range = ⟨0, 0⟩) := by
  obtain ⟨_, _, found⟩ := Outcome.bind_ok ran
  rcases pmmFindPages_ok sized found with ⟨fit, taken, _⟩ | ⟨rfl, rfl, _⟩
  · exact ⟨taken, .inl fit.enough⟩
  · exact ⟨Taken.nothing _, .inr rfl⟩

end Navy.Pmm
