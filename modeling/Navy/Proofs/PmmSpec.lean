import Navy.Proofs.PmmLive

/-! The frame allocator against the intent of a next-fit search: what it finds,
when it ends, and what it can never find. -/

namespace Navy.Pmm
open Outcome

variable {handover : Handover} {pmm after : Pmm} {amount fuel : Nat} {range : Range}

/-- The bitmap gets a bit for every page below the end of the last entry, in whole bytes. -/
theorem pmmInit_size {edited : Handover} (ran : pmmInit handover = .ok (pmm, edited)) :
    ∃ last, handover.mmap.getLast? = some last ∧
      pmm.bitmapSize = wrap (last.range.base + last.range.length) / (pageSize * 8) := by
  unfold pmmInit at ran
  split at ran
  next last same =>
    dsimp only [ok_bind] at ran
    obtain ⟨⟨⟩, -, ran⟩ := bind_ok ran
    obtain ⟨freed, loop, ran⟩ := bind_ok ran
    obtain ⟨used, marked, rest⟩ := bind_ok ran
    obtain ⟨rfl, -⟩ := Prod.mk.inj (Except.ok.inj rest)
    have step (state : Pmm) (mmap : MmapEntry) (next : Pmm)
        (kept : state.bitmapSize = wrap (last.range.base + last.range.length) / (pageSize * 8))
        (turn : (if mmap.isFree then
          pmmRangeUnused state ⟨alignDown mmap.range.base pageSize, alignUp mmap.range.length pageSize⟩
        else return state) = .ok next) : next.bitmapSize =
          wrap (last.range.base + last.range.length) / (pageSize * 8) := by
      split at turn
      next => exact (pmmRange_size bitmapUnused_size turn).trans kept
      next =>
        obtain rfl := Except.ok.inj turn
        exact kept
    refine ⟨last, same, ?_⟩
    rw [pmmRange_size bitmapUsed_size marked, foldlM_keeps (fun state mmap next _ => step state mmap next) rfl loop]
  next => cases ran

/-- The allocator's states: `pmm_init`, then allocations and frees that return. -/
inductive Reached (handover : Handover) : Pmm → Prop where
  | init {pmm : Pmm} {edited : Handover} (ran : pmmInit handover = .ok (pmm, edited)) : Reached handover pmm
  | alloc {pmm after : Pmm} {amount : Nat} {range : Range} (before : Reached handover pmm)
      (ran : pmmAlloc pmm amount = .ok (range, after)) : Reached handover after
  | free {pmm after : Pmm} {range : Range} (before : Reached handover pmm) (ran : pmmFree pmm range = .ok after) :
      Reached handover after

/-- No page address or bit index wraps, whatever the memory map says. -/
theorem Reached.sized (reached : Reached handover pmm) : pmm.Sized := by
  induction reached with
  | init ran =>
    obtain ⟨last, -, size⟩ := pmmInit_size ran
    rw [Sized, size]
    simp only [wrap, pageSize]
    omega
  | alloc before ran ih => simpa only [Sized, (pmmAlloc_ok ih ran).1.marked.size] using ih
  | free before ran ih => simpa only [Sized, pmmRange_size bitmapUnused_size ran] using ih

/-- The whole pages a request takes. -/
def pagesFor (amount : Nat) : Nat := (amount + 4095) / 4096

/-- `count` clear bits from `first` on, below `bound`. -/
def Room (pmm : Pmm) (count bound first : Nat) : Prop :=
  first + count ≤ bound ∧ ∀ page, first ≤ page → page < first + count → isSetPmm pmm page = false

theorem room_free {count bound first : Nat} (room : Room pmm count bound first) {page : Nat} (low : first ≤ page)
    (high : page < first + count) : pmm.Free page := by
  rw [Free, ← isSetPmm_eq]
  exact room.2 page low high

/-- A start is blocked exactly when there is no room from it on. -/
theorem blocked_room {limit start : Nat} (blocked : pmm.Blocked amount limit start) (bound : Nat) :
    ¬ Room pmm (pagesFor amount) bound start := by
  obtain ⟨page, low, -, near, taken⟩ := blocked
  intro room
  refine taken (room_free room low ?_)
  unfold pagesFor
  omega

/-- The pages of a fit, in the words of the request. -/
theorem Fit.count (fit : Fit pmm amount range) : range.length = pagesFor amount * 4096 := by
  have length := fit.length
  have enough := fit.enough
  have tight := fit.tight
  unfold pagesFor
  omega

theorem Fit.room (fit : Fit pmm amount range) : Room pmm (pagesFor amount) pmm.bitmapSize (range.base / 4096) := by
  have count := fit.count
  have bound := fit.bound
  refine ⟨by omega, fun page low high => ?_⟩
  rw [isSetPmm_eq]
  exact fit.free page (Range.mem_pages.mpr (by omega))

/-- What a next-fit search that came back has done. -/
structure NextFit (pmm : Pmm) (amount : Nat) (range : Range) (after : Pmm) : Prop where
  base : range.base % pageSize = 0
  length : range.length = pagesFor amount * pageSize
  room : Room pmm (pagesFor amount) pmm.bitmapSize (range.base / pageSize)
  ahead : pmm.lastPage ≤ range.base / pageSize
  lowest : ∀ start, pmm.lastPage ≤ start → Room pmm (pagesFor amount) pmm.bitmapSize start →
    range.base / pageSize ≤ start
  bits : ∀ page, isSetPmm after page =
    if range.base / pageSize ≤ page ∧ page < range.base / pageSize + pagesFor amount then true else isSetPmm pmm page
  size : after.bitmapSize = pmm.bitmapSize
  counter : after.usablePages = wrapSub pmm.usablePages (pagesFor amount)
  cursor : after.lastPage = range.base / pageSize + pagesFor amount

/-- A search that comes back has found the lowest long enough run of free pages from
the cursor on, taken just those pages and left the cursor behind them, or it has
found nothing and changed nothing. -/
theorem next_fit (sized : 8 * pmm.bitmapSize * pageSize < 2 ^ 64) (word : pmm.usablePages < 2 ^ 64)
    (positive : 0 < amount) (ran : pmmFindPages fuel pmm amount = .ok (range, after)) :
    (range.length ≠ 0 → NextFit pmm amount range after) ∧ (range.length = 0 → after = pmm) := by
  rcases pmmFindPages_ok sized ran with ⟨fit, taken, cursor⟩ | ⟨rfl, rfl, -⟩
  · have count := fit.count
    have pages : range.length / 4096 = pagesFor amount := by omega
    refine ⟨fun _ => ⟨fit.base, count, fit.room, fit.low positive, ?_, ?_, taken.marked.size, ?_, ?_⟩, fun empty => ?_⟩
    · intro start inside room
      by_contra before
      exact blocked_room (fit.lowest start inside (Nat.lt_of_not_le before)) _ room
    · intro page
      rw [isSetPmm_eq, isSetPmm_eq, taken.marked.bits, pages]
      rfl
    · have counter := taken.marked.counter
      have small := taken.marked.word word
      rw [if_pos rfl, if_pos rfl, pages] at counter
      simp only [wrapSub, wrap] at counter ⊢
      omega
    · rw [cursor, pages]
      rfl
    · have enough := fit.enough
      omega
  · exact ⟨fun some => absurd rfl some, fun _ => rfl⟩

/-- A machine with one reserved page and `length` bytes of usable memory behind it. -/
def machine (length : Nat) : Handover where
  memoryUsable := length
  usablePages := length / pageSize
  rsdt := 0
  framebuffer := ⟨0, 0, 0, 0⟩
  mmap := [⟨⟨0, 0x1000⟩, 2, false⟩, ⟨⟨0x1000, length⟩, stivale2MmapUsable, true⟩]
  modules := []

/-- 24 pages. The bitmap has three bytes, so a search looks at pages 0 to 2. -/
def smallMachine : Handover := machine 0x17000

theorem next_fit_small : ∃ pmm edited range after, pmmInit smallMachine = .ok (pmm, edited) ∧
    pmmFindPages searchFuel pmm 100 = .ok (range, after) ∧ NextFit pmm 100 range after := by
  obtain ⟨⟨pmm, edited⟩, booted⟩ := exists_of_isOk (pmmInit smallMachine) (by decide +kernel)
  obtain ⟨⟨range, after⟩, ran⟩ := exists_of_isOk (do
    let booted ← pmmInit smallMachine
    let found ← pmmFindPages searchFuel booted.1 100
    check (found.1.length ≠ 0 ∧ booted.1.usablePages < 2 ^ 64) .assertion
    return found) (by decide +kernel)
  rw [booted, ok_bind] at ran
  obtain ⟨⟨range, after⟩, found, ran⟩ := bind_ok ran
  obtain ⟨⟨⟩, checked, -⟩ := bind_ok ran
  obtain ⟨some, word⟩ := check_ok checked
  have sized := (Reached.init booted).sized
  exact ⟨pmm, edited, range, after, booted, found, (next_fit sized word (by decide) found).1 some⟩

/-- What lets a search come to its end: it begins at page 0, or asks for nothing,
or there is room ahead of the cursor. -/
def Ends (pmm : Pmm) (amount : Nat) : Prop :=
  pmm.lastPage = 0 ∨ amount = 0 ∨ ∃ start, pmm.lastPage ≤ start ∧ Room pmm (pagesFor amount) pmm.bitmapSize start

/-- Nothing is found at once, wherever the cursor is. -/
theorem search_nothing (pmm : Pmm) : ∃ result, pmmFindPages searchFuel pmm 0 = .ok result := by
  have empty : findLoop pmm 0 (pmm.bitmapSize - pmm.lastPage) pmm.lastPage ⟨0, 0⟩ = ⟨0, 0⟩ := by
    cases pmm.bitmapSize - pmm.lastPage with
    | zero => rfl
    | succ remaining => rfl
  simp only [searchFuel, pmmFindPages, empty]
  exact ⟨_, rfl⟩

/-- A search that does not end repeats itself for ever. -/
theorem search_ends (sized : pmm.Sized) (ends : Ends pmm amount) :
    ∃ result, pmmFindPages searchFuel pmm amount = .ok result := by
  rcases pmmFindPages_unfold pmm amount sized with ⟨range, found, -, -, -, ran⟩ | ⟨blocked, step⟩
  · exact ⟨_, ran 0⟩
  · rcases ends with first | rfl | ⟨start, ahead, room⟩
    · exact ⟨_, (step 0).trans (if_pos first)⟩
    · exact search_nothing pmm
    · refine absurd room (blocked_room (blocked start ahead ?_) _)
      have inside := room.1
      unfold pagesFor at inside
      omega

theorem search_stuck (sized : pmm.Sized) (stuck : ¬ Ends pmm amount) (fuel : Nat) :
    pmmFindPages fuel pmm amount = .error .noReturn := by
  rcases pmmFindPages_unfold pmm amount sized with ⟨range, found, fit, -, -, ran⟩ | ⟨-, step⟩
  · refine absurd ?_ stuck
    by_cases nothing : amount = 0
    · exact .inr (.inl nothing)
    · exact .inr (.inr ⟨_, fit.low (Nat.pos_of_ne_zero nothing), fit.room⟩)
  · induction fuel with
    | zero => rfl
    | succ fuel ih => rw [step, if_neg fun first => stuck (.inl first), ih]

/-- When a search ends in a state the kernel can reach, and so when an allocation
gets past its search and gives the lock back. -/
theorem search_ends_iff (reached : Reached handover pmm) (amount : Nat) :
    ((∃ fuel result, pmmFindPages fuel pmm amount = .ok result) ↔ Ends pmm amount) ∧
      ((∃ result, pmmAlloc pmm amount = .ok result) ↔ 0 < pmm.usablePages ∧ Ends pmm amount) := by
  have sized := reached.sized
  have ends : ∀ {fuel : Nat} {result : Range × Pmm}, pmmFindPages fuel pmm amount = .ok result → Ends pmm amount := by
    intro fuel result ran
    by_contra stuck
    rw [search_stuck sized stuck] at ran
    cases ran
  refine ⟨⟨?_, fun stops => ⟨searchFuel, search_ends sized stops⟩⟩, ?_, ?_⟩
  · intro returned
    obtain ⟨fuel, result, ran⟩ := returned
    exact ends ran
  · intro returned
    obtain ⟨result, ran⟩ := returned
    obtain ⟨⟨⟩, usable, found⟩ := bind_ok ran
    exact ⟨check_ok usable, ends found⟩
  · intro condition
    obtain ⟨result, found⟩ := search_ends sized condition.2
    refine ⟨result, ?_⟩
    unfold pmmAlloc
    rw [check_true _ condition.1, ok_bind, found]

/-- `smallMachine` with one page allocated: the cursor is at the scan bound. -/
private def smallScript : Checked (Pmm × Pmm × Range) := do
  let (booted, _) ← pmmInit smallMachine
  let (range, pmm) ← pmmAlloc booted pageSize
  check (range = ⟨0x2000, 0x1000⟩ ∧ 0 < pmm.usablePages ∧ pmm.lastPage = 3 ∧ pmm.bitmapSize = 3) .assertion
  return (booted, pmm, range)

theorem search_ends_small : ∃ pmm, Reached smallMachine pmm ∧ Ends pmm 4096 ∧
    ∃ fuel result, pmmFindPages fuel pmm 4096 = .ok result := by
  obtain ⟨result, ran⟩ := exists_of_isOk (do
    let (pmm, _) ← pmmInit smallMachine
    check (pmm.lastPage = 0) .assertion) (by decide +kernel)
  obtain ⟨⟨pmm, edited⟩, booted, ran⟩ := bind_ok ran
  have reached := Reached.init booted
  have ends : Ends pmm 4096 := .inl (check_ok ran)
  exact ⟨pmm, reached, ends, (search_ends_iff reached 4096).1.mpr ends⟩

/-- The second page of the machine is never found, and the search for it never ends. -/
theorem search_stuck_small : ∃ pmm, Reached smallMachine pmm ∧ 0 < pmm.usablePages ∧
    (∀ fuel, pmmFindPages fuel pmm 4096 = .error .noReturn) ∧ pmmAlloc pmm 4096 = .error .noReturn := by
  obtain ⟨result, ran⟩ := exists_of_isOk smallScript (by decide +kernel)
  obtain ⟨⟨booted, edited⟩, first, ran⟩ := bind_ok ran
  obtain ⟨⟨range, pmm⟩, second, ran⟩ := bind_ok ran
  obtain ⟨⟨⟩, checked, -⟩ := bind_ok ran
  obtain ⟨-, usable, cursor, bound⟩ := check_ok checked
  have reached := (Reached.init first).alloc second
  have stuck : ¬ Ends pmm 4096 := by
    intro ends
    rcases ends with start | nothing | ⟨start, ahead, room⟩
    · omega
    · cases nothing
    · have inside := room.1
      unfold pagesFor at inside
      omega
  have endless := search_stuck reached.sized stuck
  refine ⟨pmm, reached, usable, endless, ?_⟩
  unfold pmmAlloc
  rw [check_true _ usable, ok_bind, endless]

/-- A run long enough exists, but only at or beyond page `bitmap_size`, and the
search goes over all the pages below it. -/
structure Hidden (pmm : Pmm) (amount : Nat) : Prop where
  usable : 0 < pmm.usablePages
  cursor : pmm.lastPage = 0
  near : ∀ start, ¬ Room pmm (pagesFor amount) pmm.bitmapSize start
  far : ∃ start, Room pmm (pagesFor amount) (8 * pmm.bitmapSize) start

theorem alloc_empty_iff (sized : pmm.Sized) (positive : 0 < amount) :
    (∃ range after, pmmAlloc pmm amount = .ok (range, after) ∧ range.length = 0) ↔
      0 < pmm.usablePages ∧ pmm.lastPage = 0 ∧ ∀ start, ¬ Room pmm (pagesFor amount) pmm.bitmapSize start := by
  constructor
  · intro returned
    obtain ⟨range, after, ran, empty⟩ := returned
    obtain ⟨⟨⟩, usable, found⟩ := bind_ok ran
    rcases pmmFindPages_ok sized found with ⟨fit, -, -⟩ | ⟨-, -, first, blocked⟩
    · have enough := fit.enough
      omega
    · refine ⟨check_ok usable, first, fun start room => blocked_room (blocked start ?_) _ room⟩
      have inside := room.1
      unfold pagesFor at inside
      omega
  · intro condition
    obtain ⟨usable, first, none⟩ := condition
    rcases pmmFindPages_unfold pmm amount sized with ⟨range, found, fit, -, -, -⟩ | ⟨-, step⟩
    · exact absurd fit.room (none _)
    · refine ⟨⟨0, 0⟩, pmm, ?_, rfl⟩
      unfold pmmAlloc
      rw [check_true _ usable, ok_bind, searchFuel, step, if_pos first]

/-- An empty answer means that no run is long enough, but for the runs it hides;
and what lies beyond page `bitmap_size` is never given out. -/
theorem alloc_complete_iff (reached : Reached handover pmm) (positive : 0 < amount) :
    ((∀ range after, pmmAlloc pmm amount = .ok (range, after) → range.length = 0 →
        ∀ start, ¬ Room pmm (pagesFor amount) (8 * pmm.bitmapSize) start) ↔ ¬ Hidden pmm amount) ∧
      ∀ range after, pmmAlloc pmm amount = .ok (range, after) → ∀ page ∈ range.pages, page < pmm.bitmapSize := by
  have sized := reached.sized
  refine ⟨⟨?_, ?_⟩, ?_⟩
  · intro complete hidden
    obtain ⟨range, after, ran, empty⟩ :=
      (alloc_empty_iff sized positive).mpr ⟨hidden.usable, hidden.cursor, hidden.near⟩
    obtain ⟨start, room⟩ := hidden.far
    exact complete range after ran empty start room
  · intro shown range after ran empty start room
    obtain ⟨usable, cursor, near⟩ := (alloc_empty_iff sized positive).mp ⟨range, after, ran, empty⟩
    exact shown ⟨usable, cursor, near, start, room⟩
  · intro range after ran page member
    have inside := Range.mem_pages.mp member
    have bound := (pmmAlloc_ok sized ran).1.bound
    omega

theorem alloc_complete_small : ∃ pmm, Reached smallMachine pmm ∧
    ∀ range after, pmmAlloc pmm 100 = .ok (range, after) → ∀ page ∈ range.pages, page < pmm.bitmapSize := by
  obtain ⟨⟨pmm, edited⟩, booted⟩ := exists_of_isOk (pmmInit smallMachine) (by decide +kernel)
  have reached := Reached.init booted
  exact ⟨pmm, reached, (alloc_complete_iff reached (by decide)).2⟩

/-- Two pages are refused with twenty-one of them free in a row. -/
theorem alloc_incomplete_small : ∃ pmm range after, Reached smallMachine pmm ∧ pmmAlloc pmm 8192 = .ok (range, after) ∧
    range.length = 0 ∧ Room pmm (pagesFor 8192) (8 * pmm.bitmapSize) 3 := by
  obtain ⟨result, ran⟩ := exists_of_isOk (do
    let (pmm, _) ← pmmInit smallMachine
    let (range, _) ← pmmAlloc pmm 8192
    check (range.length = 0 ∧ pmm.bitmapSize = 3 ∧ isSetPmm pmm 3 = false ∧ isSetPmm pmm 4 = false) .assertion)
    (by decide +kernel)
  obtain ⟨⟨pmm, edited⟩, booted, ran⟩ := bind_ok ran
  obtain ⟨⟨range, after⟩, refused, ran⟩ := bind_ok ran
  obtain ⟨empty, bound, first, second⟩ := check_ok ran
  refine ⟨pmm, range, after, .init booted, refused, empty, ?_, ?_⟩
  · rw [bound]
    decide
  · intro page low high
    have pages : pagesFor 8192 = 2 := rfl
    rw [pages] at high
    have either : page = 3 ∨ page = 4 := by omega
    rcases either with rfl | rfl
    · exact first
    · exact second

end Navy.Pmm
