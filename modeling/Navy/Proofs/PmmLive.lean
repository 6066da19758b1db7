import Navy.Proofs.PmmSearch
import Mathlib.Algebra.BigOperators.Group.List.Basic

/-! The allocator against a ghost list of live ranges. The list is kept up to
permutation, so a free may pick any of its members. -/

namespace Navy.Pmm

def Apart (first second : Range) : Prop := ∀ page ∈ first.pages, page ∉ second.pages

def pageCount (live : List Range) : Nat := (live.map fun range => range.length / pageSize).sum

/-- `current` is `initial` with exactly the pages of `live` taken out. -/
structure Accounts (initial : Pmm) (live : List Range) (current : Pmm) : Prop where
  size : current.bitmapSize = initial.bitmapSize
  aligned : ∀ range ∈ live, range.base % 4096 = 0 ∧ range.length % 4096 = 0
  bound : ∀ range ∈ live, range.base / 4096 + range.length / 4096 ≤ initial.bitmapSize
  apart : live.Pairwise Apart
  fresh : ∀ range ∈ live, ∀ page ∈ range.pages, initial.Free page
  bits : ∀ page, current.bitmap.bit page = true ↔
    initial.bitmap.bit page = true ∨ ∃ range ∈ live, page ∈ range.pages
  counter : wrap (current.usablePages + pageCount live) = wrap initial.usablePages
  word : initial.usablePages < 2 ^ 64 → current.usablePages < 2 ^ 64

theorem Accounts.start (pmm : Pmm) : Accounts pmm [] pmm := by
  refine ⟨rfl, ?_, ?_, .nil, ?_, ?_, rfl, id⟩ <;> simp

theorem Apart.symm {first second : Range} (apart : Apart first second) : Apart second first :=
  fun page member other => apart page other member

theorem Accounts.perm {initial current : Pmm} {live order : List Range}
    (accounts : Accounts initial live current) (same : live.Perm order) : Accounts initial order current := by
  refine ⟨accounts.size, fun range member => accounts.aligned range (same.mem_iff.mpr member),
    fun range member => accounts.bound range (same.mem_iff.mpr member),
    (same.pairwise_iff Apart.symm).mp accounts.apart,
    fun range member => accounts.fresh range (same.mem_iff.mpr member), ?_, ?_, accounts.word⟩
  · intro page
    simpa only [same.mem_iff] using accounts.bits page
  · have total : pageCount order = pageCount live := ((same.map _).sum_eq).symm
    rw [total]
    exact accounts.counter

theorem Accounts.sized {initial current : Pmm} {live : List Range}
    (accounts : Accounts initial live current) (sized : initial.Sized) : current.Sized := by
  simpa only [Sized, accounts.size] using sized

/-- A page the allocator still holds free was free from the start and belongs
to no live range. -/
theorem Accounts.free {initial current : Pmm} {live : List Range}
    (accounts : Accounts initial live current) {page : Nat} (free : current.Free page) :
    initial.Free page ∧ ∀ range ∈ live, page ∉ range.pages := by
  have not : ¬ current.bitmap.bit page = true := by simpa [Free] using free
  rw [accounts.bits] at not
  exact ⟨by simpa [Free] using fun set => not (.inl set), fun range member inside => not (.inr ⟨range, member, inside⟩)⟩

theorem Accounts.take {initial current after : Pmm} {live : List Range} {range : Range}
    (accounts : Accounts initial live current) (taken : Taken current range after) :
    Accounts initial (range :: live) after := by
  refine ⟨taken.marked.size.trans accounts.size, ?_, ?_, ?_, ?_, ?_, ?_, fun small =>
    taken.marked.word (accounts.word small)⟩
  · intro other member
    rcases List.mem_cons.mp member with rfl | member
    · exact ⟨taken.base, taken.length⟩
    · exact accounts.aligned other member
  · intro other member
    rcases List.mem_cons.mp member with rfl | member
    · exact accounts.size ▸ taken.bound
    · exact accounts.bound other member
  · refine List.pairwise_cons.mpr ⟨?_, accounts.apart⟩
    intro other member page inside
    exact (accounts.free (taken.free page inside)).2 other member
  · intro other member page inside
    rcases List.mem_cons.mp member with rfl | member
    · exact (accounts.free (taken.free page inside)).1
    · exact accounts.fresh other member page inside
  · intro page
    rw [taken.marked.bits]
    simp only [List.mem_cons, exists_eq_or_imp, Range.mem_pages]
    split
    next inside => simp [inside]
    next outside =>
      have := accounts.bits page
      simp only [Range.mem_pages] at this
      simp only [outside, false_or]
      exact this
  · have total : pageCount (range :: live) = range.length / 4096 + pageCount live := rfl
    have before := accounts.counter
    have marked := taken.marked.counter
    simp only [if_true] at marked
    simp only [wrap, total] at before marked ⊢
    omega

theorem Accounts.give {initial current : Pmm} {live : List Range} {range : Range}
    (accounts : Accounts initial (range :: live) current) (sized : initial.Sized) :
    ∃ after, pmmFree current range = .ok after ∧ Accounts initial live after := by
  have small := (accounts.sized sized).small
  have bound := accounts.bound range (by simp)
  have size := accounts.size
  obtain ⟨after, ran, _, cleared⟩ := pmmRangeUnused_rewrites current range (by omega) (by omega)
  have apart := List.pairwise_cons.mp accounts.apart
  refine ⟨after, ran, cleared.size.trans size, fun other member => accounts.aligned other (by simp [member]),
    fun other member => accounts.bound other (by simp [member]), apart.2,
    fun other member => accounts.fresh other (by simp [member]), ?_, ?_, fun small =>
      cleared.word (accounts.word small)⟩
  · intro page
    rw [cleared.bits]
    split
    next inside =>
      have member : page ∈ range.pages := Range.mem_pages.mpr inside
      have free : initial.bitmap.bit page = false := accounts.fresh range (by simp) page member
      simp only [free, Bool.false_eq_true, false_or, false_iff, not_exists, not_and]
      exact fun other present => apart.1 other present page member
    next outside =>
      rw [accounts.bits]
      simp only [List.mem_cons, exists_eq_or_imp, Range.mem_pages, outside, false_or]
  · have total : pageCount (range :: live) = range.length / 4096 + pageCount live := rfl
    have before := accounts.counter
    have freed := cleared.counter
    simp only [Bool.false_eq_true, if_false] at freed
    simp only [wrap, total] at before freed ⊢
    omega

/-- Allocations that return, in any order with frees of ranges that are still live. -/
inductive Run (initial : Pmm) : List Range → Pmm → Prop where
  | start : Run initial [] initial
  | alloc {live : List Range} {current after : Pmm} (amount : Nat) {range : Range} (before : Run initial live current)
      (ran : pmmAlloc current amount = .ok (range, after)) : Run initial (range :: live) after
  | free {live : List Range} {current after : Pmm} {range : Range} (before : Run initial live current)
      (member : range ∈ live) (ran : pmmFree current range = .ok after) : Run initial (live.erase range) after

theorem Run.accounts {initial current : Pmm} {live : List Range} (sized : initial.Sized)
    (run : Run initial live current) : Accounts initial live current := by
  induction run with
  | start => exact .start initial
  | alloc amount before ran ih => exact ih.take (pmmAlloc_ok (ih.sized sized) ran).1
  | free before member ran ih =>
    obtain ⟨after, same, kept⟩ := (ih.perm (List.perm_cons_erase member)).give sized
    rw [ran] at same
    cases same
    exact kept

/-- Freeing everything that is live, in any order, runs and undoes the run. -/
theorem Accounts.release {initial current : Pmm} {live : List Range} (sized : initial.Sized)
    (accounts : Accounts initial live current) :
    ∃ final, live.foldlM pmmFree current = .ok final ∧ Accounts initial [] final := by
  induction live generalizing current with
  | nil => exact ⟨current, rfl, accounts⟩
  | cons range rest ih =>
    obtain ⟨middle, ran, kept⟩ := accounts.give sized
    obtain ⟨final, rest, last⟩ := ih kept
    refine ⟨final, ?_, last⟩
    rw [List.foldlM_cons, ran]
    exact rest

theorem Accounts.restored {initial final : Pmm} (accounts : Accounts initial [] final)
    (word : initial.usablePages < 2 ^ 64) :
    final.bitmap = initial.bitmap ∧ final.usablePages = initial.usablePages := by
  constructor
  · apply Bytes.ext_bit
    intro page
    have := accounts.bits page
    simp only [List.not_mem_nil, false_and, exists_false, or_false] at this
    exact Bool.eq_iff_iff.mpr this
  · have small := accounts.word word
    have counter := accounts.counter
    simp only [pageCount, List.map_nil, List.sum_nil, Nat.add_zero] at counter
    rwa [wrap_of_lt small, wrap_of_lt word] at counter

/-- The accounts of the allocator, after any run of allocations and frees: what is
out is page aligned and apart, a bit is set for the pages taken from the start and
for those that are out, and the counter is lower by the pages that are out. Given
back in any order, they leave the bitmap and the counter of the start. -/
theorem pmm_runs_account {initial current : Pmm} {live : List Range} (sized : initial.Sized)
    (word : initial.usablePages < 2 ^ 64) (run : Run initial live current) :
    (∀ range ∈ live, pageSize ∣ range.base ∧ pageSize ∣ range.length) ∧
    live.Pairwise Apart ∧
    (∀ page, isSetPmm current page = true ↔
      isSetPmm initial page = true ∨ ∃ range ∈ live, page ∈ range.pages) ∧
    (∀ page, isSetPmm initial page = true → ∀ range ∈ live, page ∉ range.pages) ∧
    current.usablePages = wrapSub initial.usablePages (pageCount live) ∧
    ∀ order : List Range, order.Perm live → ∃ final, order.foldlM pmmFree current = .ok final ∧
      final.bitmap = initial.bitmap ∧ final.usablePages = initial.usablePages := by
  have accounts := run.accounts sized
  refine ⟨?_, accounts.apart, ?_, ?_, ?_, ?_⟩
  · intro range member
    have aligned := accounts.aligned range member
    exact ⟨Nat.dvd_of_mod_eq_zero aligned.1, Nat.dvd_of_mod_eq_zero aligned.2⟩
  · intro page
    simpa only [isSetPmm_eq] using accounts.bits page
  · intro page set range member inside
    have free : initial.bitmap.bit page = false := accounts.fresh range member page inside
    rw [isSetPmm_eq, free] at set
    cases set
  · have counter := accounts.counter
    have small := accounts.word word
    simp only [wrapSub, wrap] at counter ⊢
    omega
  · intro order same
    obtain ⟨final, ran, last⟩ := (accounts.perm same.symm).release sized
    exact ⟨final, ran, last.restored word⟩

private def sixteenFree : Pmm := ⟨fun _ => 0#8, 16, 16, 0⟩

/-- Two allocations, of one page and of two, and the first one freed. -/
private def sixteenScript : Checked Pmm := do
  let (first, pmm) ← pmmAlloc sixteenFree 1
  check (first = ⟨0, 4096⟩) .assertion
  let (second, pmm) ← pmmAlloc pmm 4097
  check (second = ⟨4096, 8192⟩) .assertion
  pmmFree pmm first

theorem pmm_runs_account_sixteen : ∃ current, Run sixteenFree [⟨4096, 8192⟩] current ∧
    isSetPmm current 0 = false ∧ isSetPmm current 2 = true ∧ current.usablePages = 14 := by
  obtain ⟨current, ran⟩ := Outcome.exists_of_isOk sixteenScript (by decide +kernel)
  obtain ⟨⟨first, one⟩, took, ran⟩ := Outcome.bind_ok ran
  obtain ⟨_, found, ran⟩ := Outcome.bind_ok ran
  obtain rfl := check_ok found
  obtain ⟨⟨second, two⟩, took', ran⟩ := Outcome.bind_ok ran
  obtain ⟨_, found', ran⟩ := Outcome.bind_ok ran
  obtain rfl := check_ok found'
  dsimp only at took' ran
  have sized : sixteenFree.Sized := show 8 * 16 * 4096 < 2 ^ 64 by decide
  have both := (Run.start.alloc 1 took).alloc 4097 took'
  have left : List.erase [⟨4096, 8192⟩, ⟨0, 4096⟩] (⟨0, 4096⟩ : Range) = [⟨4096, 8192⟩] := by decide
  have run := both.free (by simp) ran
  rw [left] at run
  obtain ⟨_, _, bits, _, counter, _⟩ := pmm_runs_account sized (by decide) run
  refine ⟨current, run, ?_, ?_, counter⟩
  · have free := mt (bits 0).mp (by decide)
    exact Bool.eq_false_iff.mpr free
  · exact (bits 2).mpr (.inr ⟨_, List.mem_singleton_self _, by decide⟩)

end Navy.Pmm
