import Navy.Proofs.PmmSpec
import Mathlib.Data.Finset.Card
import Mathlib.Order.Interval.Finset.Nat

/-! What `pmm_init` makes of a memory map: where the bitmap goes, which bits it
clears, and when it stays inside the bitmap it has made. -/

namespace Navy

/-- Physical address `byte` lies in the range. -/
def Range.Holds (range : Range) (byte : Nat) : Prop := range.base ≤ byte ∧ byte < range.base + range.length

namespace Pmm
open Outcome

/-- What the boot protocol promises of a memory map. The last field is its promise
that every entry has a place in the direct map. -/
structure Stivale2 (handover : Handover) : Prop where
  sorted : handover.mmap.Pairwise fun first second => first.range.base ≤ second.range.base
  aligned : ∀ mmap ∈ handover.mmap, mmap.isFree → mmap.range.base % pageSize = 0 ∧ mmap.range.length % pageSize = 0
  apart : handover.mmap.Pairwise fun first second => (first.isFree ∨ second.isFree) →
    ∀ byte, first.range.Holds byte → ¬ second.range.Holds byte
  reach : ∀ mmap ∈ handover.mmap, mmap.range.base + mmap.range.length ≤ 2 ^ 47

variable {handover : Handover}

/-- `bitmap_size`, from the end of the last entry. -/
def bitmapBytes (handover : Handover) : Nat :=
  match handover.mmap.getLast? with
  | some last => wrap (last.range.base + last.range.length) / (pageSize * 8)
  | none => 0

/-- The physical memory the bitmap is kept in. -/
def bitmapRange (handover : Handover) : Range :=
  ⟨mmapIoToPhys (placeBitmap (bitmapBytes handover) 0 handover.mmap).1, bitmapBytes handover⟩

/-- A usable entry longer than the bitmap. -/
def Roomy (handover : Handover) (mmap : MmapEntry) : Prop := mmap.isFree ∧ bitmapBytes handover < mmap.range.length

/-- The entry that makes room for the bitmap at its start. -/
def shrunk (bitmapSize : Nat) (mmap : MmapEntry) : MmapEntry :=
  { mmap with range := ⟨wrap (mmap.range.base + alignUp bitmapSize pageSize), wrapSub mmap.range.length
    (alignUp bitmapSize pageSize)⟩ }

private theorem placeBitmap_placed (size : Nat) {bitmap : Nat} (placed : bitmap ≠ 0) (entries : List MmapEntry) :
    placeBitmap size bitmap entries = (bitmap, entries) := by
  induction entries with
  | nil => rfl
  | cons mmap rest ih =>
    unfold placeBitmap
    rw [if_neg (fun start => placed start.1), ih]

/-- The bitmap goes to the first entry with room for it. -/
theorem placeBitmap_first (size : Nat) {entries : List MmapEntry}
    (reach : ∀ mmap ∈ entries, mmap.range.base + mmap.range.length ≤ 2 ^ 47)
    (room : ∃ mmap ∈ entries, mmap.isFree ∧ size < mmap.range.length) :
    ∃ before chosen rest, entries = before ++ chosen :: rest ∧ chosen.isFree ∧ size < chosen.range.length ∧
      placeBitmap size 0 entries = (mmapPhysToIo chosen.range.base, before ++ shrunk size chosen :: rest) := by
  induction entries with
  | nil =>
    obtain ⟨mmap, member, -⟩ := room
    cases member
  | cons mmap rest ih =>
    unfold placeBitmap
    by_cases fits : mmap.isFree ∧ size < mmap.range.length
    · have bound := reach mmap (by simp)
      have placed : mmapPhysToIo mmap.range.base ≠ 0 := by
        unfold mmapPhysToIo
        simp only [wrap, mmapIoBase]
        omega
      refine ⟨[], mmap, rest, rfl, fits.1, fits.2, ?_⟩
      rw [if_pos ⟨rfl, fits⟩]
      dsimp only
      rw [placeBitmap_placed size placed]
      rfl
    · obtain ⟨other, member, holds⟩ := room
      have later : other ∈ rest := by
        rcases List.mem_cons.mp member with rfl | later
        · exact absurd holds fits
        · exact later
      obtain ⟨before, chosen, after, same, free, long, placed⟩ :=
        ih (fun mmap member => reach mmap (List.mem_cons_of_mem _ member)) ⟨other, later, holds⟩
      refine ⟨mmap :: before, chosen, after, by rw [same]; rfl, free, long, ?_⟩
      rw [if_neg (fun start => fits start.2)]
      dsimp only
      rw [placed]
      rfl

/-- An entry in whole pages, below the end of the direct map. -/
structure Clean (mmap : MmapEntry) : Prop where
  base : mmap.range.base % 4096 = 0
  length : mmap.range.length % 4096 = 0
  reach : mmap.range.base + mmap.range.length ≤ 2 ^ 47

/-- No page belongs to two of the usable entries. -/
def PagesApart (first second : MmapEntry) : Prop :=
  first.isFree → second.isFree → ∀ page ∈ first.range.pages, page ∉ second.range.pages

/-- Page `page` is in one of the usable entries. -/
def Within (entries : List MmapEntry) (page : Nat) : Prop := ∃ mmap ∈ entries, mmap.isFree ∧ page ∈ mmap.range.pages

/-- The bits `pmm_init` set up that are clear. -/
def clearBits (pmm : Pmm) : Nat :=
  ((Finset.range (8 * pmm.bitmapSize)).filter fun page => isSetPmm pmm page = false).card

theorem clearBits_le (pmm : Pmm) : clearBits pmm ≤ 8 * pmm.bitmapSize := by
  unfold clearBits
  exact (Finset.card_filter_le _ _).trans_eq (Finset.card_range _)

/-- Pages that were taken add to the clear bits when they are released. -/
theorem Rewritten.clearBits {before after : Pmm} {first count : Nat}
    (cleared : Rewritten false first count before after) (inside : first + count ≤ 8 * before.bitmapSize)
    (taken : ∀ page, first ≤ page → page < first + count → ¬ before.Free page) :
    clearBits after = clearBits before + count := by
  unfold Pmm.clearBits
  have parts : ((Finset.range (8 * after.bitmapSize)).filter fun page => isSetPmm after page = false) =
      ((Finset.range (8 * before.bitmapSize)).filter fun page => isSetPmm before page = false) ∪
        Finset.Ico first (first + count) := by
    ext page
    simp only [Finset.mem_filter, Finset.mem_range, Finset.mem_union, Finset.mem_Ico, isSetPmm_eq,
      cleared.bits, cleared.size]
    by_cases window : first ≤ page ∧ page < first + count
    · simp only [window, and_self, if_true, or_true, iff_true, and_true]
      omega
    · simp only [window, if_false, or_false]
  have disjoint : Disjoint ((Finset.range (8 * before.bitmapSize)).filter fun page => isSetPmm before page = false)
      (Finset.Ico first (first + count)) := by
    rw [Finset.disjoint_left]
    intro page clear window
    have free := (Finset.mem_filter.mp clear).2
    have bounds := Finset.mem_Ico.mp window
    rw [isSetPmm_eq] at free
    exact taken page bounds.1 bounds.2 free
  rw [parts, Finset.card_union_of_disjoint disjoint, Nat.card_Ico, Nat.add_sub_cancel_left]

/-- What a pass over usable entries has done to the bitmap, and what it keeps of
the counter. -/
structure Released (entries : List MmapEntry) (before after : Pmm) : Prop where
  size : after.bitmapSize = before.bitmapSize
  bits : ∀ page, after.Free page ↔ before.Free page ∨ Within entries page
  counted : before.usablePages = clearBits before → after.usablePages = clearBits after

/-- One turn of the second loop of `pmm_init`. -/
def releaseEntry (pmm : Pmm) (mmap : MmapEntry) : Checked Pmm :=
  if mmap.isFree then
    pmmRangeUnused pmm ⟨alignDown mmap.range.base pageSize, alignUp mmap.range.length pageSize⟩
  else return pmm

theorem Clean.round {mmap : MmapEntry} (clean : Clean mmap) :
    Range.mk (alignDown mmap.range.base pageSize) (alignUp mmap.range.length pageSize) = mmap.range := by
  have base := clean.base
  have length := clean.length
  have reach := clean.reach
  rw [alignDown_page, alignUp_page _ (by omega), wrap_of_lt (by omega), show mmap.range.base / 4096 * 4096 =
    mmap.range.base by omega, show (mmap.range.length + 4095) / 4096 * 4096 = mmap.range.length by omega]

private theorem released_one {mmap : MmapEntry} {pmm : Pmm} (sized : pmm.Sized) (clean : mmap.isFree → Clean mmap)
    (inside : mmap.isFree → ∀ page ∈ mmap.range.pages, page < 8 * pmm.bitmapSize)
    (taken : mmap.isFree → ∀ page ∈ mmap.range.pages, ¬ pmm.Free page) :
    ∃ after, releaseEntry pmm mmap = .ok after ∧ Released [mmap] pmm after := by
  have small := sized.small
  unfold releaseEntry
  by_cases free : mmap.isFree
  · rw [if_pos free, (clean free).round]
    have fits : mmap.range.length / 4096 = 0 ∨
        mmap.range.base / 4096 + mmap.range.length / 4096 ≤ 8 * pmm.bitmapSize := by
      by_contra beyond
      have last := inside free (mmap.range.base / 4096 + mmap.range.length / 4096 - 1) (Range.mem_pages.mpr (by omega))
      omega
    have within (page : Nat) : Within [mmap] page ↔ page ∈ mmap.range.pages := by simp [Within, free]
    rcases fits with none | fits
    · refine ⟨pmm, by simp only [pmmRangeUnused, pmmRange, pageSize, none]; rfl, rfl, fun page => ?_, id⟩
      rw [within, Range.mem_pages, none]
      refine ⟨.inl, fun either => either.resolve_right (by omega)⟩
    · obtain ⟨after, ran, -, cleared⟩ := pmmRangeUnused_rewrites pmm mmap.range (by omega) fits
      refine ⟨after, ran, cleared.size, fun page => ?_, fun counted => ?_⟩
      · rw [within, Range.mem_pages, Free, Free, cleared.bits]
        split
        next window => simp [window]
        next window => simp [window]
      · have more := cleared.clearBits fits (fun page low high => taken free page (Range.mem_pages.mpr ⟨low, high⟩))
        have most := clearBits_le after
        have least := clearBits_le pmm
        have counter := cleared.counter
        have word := cleared.word (by omega)
        rw [cleared.size] at most
        simp only [wrap, Bool.false_eq_true, if_false] at counter
        omega
  · rw [if_neg free]
    refine ⟨pmm, rfl, rfl, fun page => ?_, id⟩
    simp [Within, free]

theorem Within.cons {mmap : MmapEntry} {rest : List MmapEntry} {page : Nat} :
    Within (mmap :: rest) page ↔ Within [mmap] page ∨ Within rest page := by
  simp [Within, or_and_right, exists_or]

/-- The pass clears exactly the usable pages, each of them once. -/
theorem release_all {entries : List MmapEntry} {pmm : Pmm} (sized : pmm.Sized)
    (clean : ∀ mmap ∈ entries, mmap.isFree → Clean mmap) (apart : entries.Pairwise PagesApart)
    (inside : ∀ page, Within entries page → page < 8 * pmm.bitmapSize)
    (taken : ∀ page, Within entries page → ¬ pmm.Free page) :
    ∃ after, entries.foldlM releaseEntry pmm = .ok after ∧ Released entries pmm after := by
  induction entries generalizing pmm with
  | nil => exact ⟨pmm, rfl, rfl, fun page => by simp [Within], id⟩
  | cons mmap rest ih =>
    have here {page : Nat} (free : mmap.isFree) (member : page ∈ mmap.range.pages) : Within (mmap :: rest) page :=
      ⟨mmap, by simp, free, member⟩
    have later {page : Nat} (within : Within rest page) : Within (mmap :: rest) page := Within.cons.mpr (.inr within)
    obtain ⟨middle, first, one⟩ := released_one sized (clean mmap (by simp))
      (fun free page member => inside page (here free member)) (fun free page member => taken page (here free member))
    have apart := List.pairwise_cons.mp apart
    obtain ⟨after, others, all⟩ := ih (by simpa only [Sized, one.size] using sized)
      (fun other member => clean other (List.mem_cons_of_mem _ member)) apart.2
      (fun page within => one.size ▸ inside page (later within))
      (fun page within free => by
        rcases (one.bits page).mp free with before | ⟨same, member, free, present⟩
        · exact taken page (later within) before
        · obtain rfl := List.mem_singleton.mp member
          obtain ⟨other, behind, free', also⟩ := within
          exact apart.1 other behind free free' page present also)
    refine ⟨after, ?_, all.size.trans one.size, fun page => ?_, fun counted => all.counted (one.counted counted)⟩
    · rw [List.foldlM_cons, first]
      exact others
    · rw [all.bits, one.bits, or_assoc, ← Within.cons]

/-- The map with the bitmap placed at the start of `chosen`. -/
structure Placement (handover : Handover) (before : List MmapEntry) (chosen : MmapEntry)
    (rest : List MmapEntry) : Prop where
  split : handover.mmap = before ++ chosen :: rest
  free : chosen.isFree
  long : bitmapBytes handover < chosen.range.length
  clean : Clean chosen
  placed : placeBitmap (bitmapBytes handover) 0 handover.mmap =
    (mmapPhysToIo chosen.range.base, before ++ shrunk (bitmapBytes handover) chosen :: rest)

theorem Stivale2.clean (promised : Stivale2 handover) {mmap : MmapEntry} (member : mmap ∈ handover.mmap)
    (free : mmap.isFree) : Clean mmap :=
  ⟨(promised.aligned mmap member free).1, (promised.aligned mmap member free).2, promised.reach mmap member⟩

theorem Stivale2.placement (promised : Stivale2 handover) (roomy : ∃ mmap ∈ handover.mmap, Roomy handover mmap) :
    ∃ before chosen rest, Placement handover before chosen rest := by
  obtain ⟨before, chosen, rest, split, free, long, placed⟩ :=
    placeBitmap_first (bitmapBytes handover) promised.reach roomy
  exact ⟨before, chosen, rest, split, free, long, promised.clean (by simp [split]) free, placed⟩

variable {before rest : List MmapEntry} {chosen : MmapEntry}

theorem Placement.range (placement : Placement handover before chosen rest) :
    bitmapRange handover = ⟨chosen.range.base, bitmapBytes handover⟩ := by
  have reach := placement.clean.reach
  rw [bitmapRange, placement.placed]
  dsimp only
  rw [phys_io _ (by omega)]

/-- Shrinking the entry takes whole pages off its start, and never more than it has. -/
theorem Placement.taken (placement : Placement handover before chosen rest) :
    alignUp (bitmapBytes handover) pageSize = (bitmapBytes handover + 4095) / 4096 * 4096 ∧
      alignUp (bitmapBytes handover) pageSize ≤ chosen.range.length := by
  have long := placement.long
  have reach := placement.clean.reach
  have length := placement.clean.length
  rw [alignUp_page _ (by omega)]
  omega

theorem Placement.shrunk (placement : Placement handover before chosen rest) :
    (shrunk (bitmapBytes handover) chosen).range =
      ⟨chosen.range.base + (bitmapBytes handover + 4095) / 4096 * 4096,
        chosen.range.length - (bitmapBytes handover + 4095) / 4096 * 4096⟩ := by
  obtain ⟨taken, within⟩ := placement.taken
  have reach := placement.clean.reach
  simp only [Pmm.shrunk, Range.mk.injEq, wrap, wrapSub, taken]
  omega

/-- The pages left in the entry: those behind the page the bitmap ends in. -/
theorem Placement.shrunk_pages (placement : Placement handover before chosen rest) (page : Nat) :
    page ∈ (Pmm.shrunk (bitmapBytes handover) chosen).range.pages ↔
      page ∈ chosen.range.pages ∧ chosen.range.base / 4096 + (bitmapBytes handover + 4095) / 4096 ≤ page := by
  have long := placement.long
  have base := placement.clean.base
  have length := placement.clean.length
  rw [placement.shrunk, Range.mem_pages, Range.mem_pages]
  dsimp only
  omega

private theorem apart_pages {first second : MmapEntry} (clean : first.isFree → Clean first)
    (clean' : second.isFree → Clean second)
    (apart : (first.isFree ∨ second.isFree) → ∀ byte, first.range.Holds byte → ¬ second.range.Holds byte) :
    PagesApart first second := by
  intro free free' page member member'
  have base := (clean free).base
  have base' := (clean' free').base
  have inside := Range.mem_pages.mp member
  have inside' := Range.mem_pages.mp member'
  refine apart (.inl free) (page * 4096) ⟨?_, ?_⟩ ⟨?_, ?_⟩ <;> omega

theorem Stivale2.pagesApart (promised : Stivale2 handover) : handover.mmap.Pairwise PagesApart := by
  refine promised.apart.imp_of_mem fun {first second} member member' apart => ?_
  exact apart_pages (promised.clean member) (promised.clean member') apart

theorem PagesApart.symm {first second : MmapEntry} (apart : PagesApart first second) : PagesApart second first :=
  fun free free' page member member' => apart free' free page member' member

/-- The other usable entries share no page with the one that holds the bitmap. -/
theorem Placement.others (placement : Placement handover before chosen rest) (promised : Stivale2 handover)
    {mmap : MmapEntry} (other : mmap ∈ before ∨ mmap ∈ rest) : PagesApart mmap chosen := by
  have apart := promised.pagesApart
  rw [placement.split, List.pairwise_append] at apart
  rcases other with early | late
  · exact apart.2.2 mmap early chosen (by simp)
  · exact ((List.pairwise_cons.mp apart.2.1).1 mmap late).symm

/-- The map `pmm_init` goes through in its second loop. -/
abbrev edited (handover : Handover) (before : List MmapEntry) (chosen : MmapEntry) (rest : List MmapEntry) :
    List MmapEntry :=
  before ++ Pmm.shrunk (bitmapBytes handover) chosen :: rest

theorem Placement.edited_clean (placement : Placement handover before chosen rest) (promised : Stivale2 handover) :
    ∀ mmap ∈ edited handover before chosen rest, mmap.isFree → Clean mmap := by
  intro mmap member free
  rcases List.mem_append.mp member with early | late
  · exact promised.clean (by simp [placement.split, early]) free
  · rcases List.mem_cons.mp late with rfl | late
    · have taken := placement.taken
      have long := placement.long
      have base := placement.clean.base
      have length := placement.clean.length
      have reach := placement.clean.reach
      refine ⟨?_, ?_, ?_⟩
      all_goals
        rw [placement.shrunk]
        dsimp only
        omega
    · exact promised.clean (by simp [placement.split, late]) free

theorem Placement.edited_apart (placement : Placement handover before chosen rest) (promised : Stivale2 handover) :
    (edited handover before chosen rest).Pairwise PagesApart := by
  have apart := promised.pagesApart
  rw [placement.split, List.pairwise_append, List.pairwise_cons] at apart
  have less {mmap : MmapEntry} (apart : PagesApart mmap chosen) : PagesApart mmap
    (Pmm.shrunk (bitmapBytes handover) chosen) :=
    fun free _ page member member' => apart free placement.free page member ((placement.shrunk_pages page).mp member').1
  rw [List.pairwise_append, List.pairwise_cons]
  refine ⟨apart.1, ⟨fun mmap late => (less (apart.2.1.1 mmap late).symm).symm, apart.2.1.2⟩,
    fun mmap early other member => ?_⟩
  rcases List.mem_cons.mp member with rfl | late
  · exact less (apart.2.2 mmap early chosen (by simp))
  · exact apart.2.2 mmap early other (by simp [late])

/-- Page `page` holds a byte of the range. -/
def Touches (range : Range) (page : Nat) : Prop := ∃ byte, range.Holds byte ∧ byte / pageSize = page

theorem Placement.touches (placement : Placement handover before chosen rest) (page : Nat) :
    Touches (bitmapRange handover) page ↔
      chosen.range.base / 4096 ≤ page ∧ page < chosen.range.base / 4096 + (bitmapBytes handover + 4095) / 4096 := by
  have base := placement.clean.base
  rw [Touches, placement.range]
  simp only [Range.Holds, pageSize]
  constructor
  · intro held
    obtain ⟨byte, inside, rfl⟩ := held
    omega
  · intro inside
    exact ⟨page * 4096, by omega, by omega⟩

/-- What the second loop releases: the usable pages, without those of the bitmap. -/
theorem Placement.within (placement : Placement handover before chosen rest) (promised : Stivale2 handover)
    (page : Nat) :
    Within (edited handover before chosen rest) page ↔
      Within handover.mmap page ∧ ¬ Touches (bitmapRange handover) page := by
  have long := placement.long
  have base := placement.clean.base
  have length := placement.clean.length
  rw [placement.touches, placement.split]
  have outside {mmap : MmapEntry} (other : mmap ∈ before ∨ mmap ∈ rest) (free : mmap.isFree)
    (member : page ∈ mmap.range.pages) :
      ¬ (chosen.range.base / 4096 ≤ page ∧ page < chosen.range.base / 4096 + (bitmapBytes handover + 4095) / 4096) :=
    fun inside => placement.others promised other free placement.free page member (Range.mem_pages.mpr (by omega))
  constructor
  · intro within
    obtain ⟨mmap, member, free, present⟩ := within
    rcases List.mem_append.mp member with early | late
    · exact ⟨⟨mmap, by simp [early], free, present⟩, outside (.inl early) free present⟩
    · rcases List.mem_cons.mp late with rfl | late
      · obtain ⟨present, behind⟩ := (placement.shrunk_pages page).mp present
        exact ⟨⟨chosen, by simp, placement.free, present⟩, by omega⟩
      · exact ⟨⟨mmap, by simp [late], free, present⟩, outside (.inr late) free present⟩
  · intro kept
    obtain ⟨⟨mmap, member, free, present⟩, untouched⟩ := kept
    rcases List.mem_append.mp member with early | late
    · exact ⟨mmap, by simp [early], free, present⟩
    · rcases List.mem_cons.mp late with rfl | late
      · have inside := Range.mem_pages.mp present
        exact ⟨Pmm.shrunk (bitmapBytes handover) mmap, by simp, free,
          (placement.shrunk_pages page).mpr ⟨present, by omega⟩⟩
      · exact ⟨mmap, by simp [late], free, present⟩

/-- The bitmap as `memset` leaves it, with every page taken. -/
def allTaken (handover : Handover) : Pmm :=
  ⟨Bytes.fill (fun _ => 0) 0 (bitmapBytes handover) 0xff, bitmapBytes handover, 0, 0⟩

theorem allTaken_sized (handover : Handover) : (allTaken handover).Sized := by
  unfold Sized allTaken bitmapBytes
  dsimp only
  split
  next last same =>
    simp only [wrap, pageSize]
    omega
  next => decide

theorem allTaken_taken {page : Nat} (inside : page < 8 * bitmapBytes handover) : ¬ (allTaken handover).Free page := by
  have ones : ∀ place < 8, (0xff#8).getLsbD place = true := by decide
  rw [Free, Bytes.bit, allTaken]
  dsimp only
  rw [Bytes.fill_inside _ _ _ _ _ (Nat.zero_le _) (by omega)]
  exact ne_false_of_eq_true (ones _ (Nat.mod_lt _ (by decide)))

theorem allTaken_counted (handover : Handover) : (allTaken handover).usablePages = clearBits (allTaken handover) := by
  refine (Finset.card_eq_zero.mpr (Finset.filter_eq_empty_iff.mpr fun page inside free => ?_)).symm
  rw [isSetPmm_eq] at free
  exact allTaken_taken (Finset.mem_range.mp inside) free

/-- `pmm_init` past the placement of the bitmap. -/
theorem Placement.run (placement : Placement handover before chosen rest) :
    pmmInit handover = (edited handover before chosen rest).foldlM releaseEntry (allTaken handover) >>= fun freed =>
      pmmRangeUsed freed (bitmapRange handover) >>= fun used =>
        .ok (used, { handover with mmap := edited handover before chosen rest }) := by
  have reach := placement.clean.reach
  have size : ∃ last, handover.mmap.getLast? = some last := by
    rw [placement.split, List.getLast?_append, List.getLast?_cons]
    exact ⟨_, rfl⟩
  obtain ⟨last, same⟩ := size
  have bytes : wrap (last.range.base + last.range.length) / (pageSize * 8) = bitmapBytes handover := by
    rw [bitmapBytes, same]
  have placed : mmapPhysToIo chosen.range.base ≠ 0 := by
    unfold mmapPhysToIo
    simp only [wrap, mmapIoBase]
    have long := placement.long
    omega
  unfold pmmInit
  rw [same]
  dsimp only
  rw [ok_bind, bytes, placement.placed]
  dsimp only
  rw [check_true _ placed, ok_bind, phys_io _ (by omega), placement.range]
  rfl

private theorem released_bits (placement : Placement handover before chosen rest) (promised : Stivale2 handover)
    {freed : Pmm} (all : Released (edited handover before chosen rest) (allTaken handover) freed) {page : Nat}
    (inside : page < 8 * bitmapBytes handover) :
    freed.Free page ↔ Within handover.mmap page ∧ ¬ Touches (bitmapRange handover) page := by
  rw [all.bits, placement.within promised]
  exact ⟨fun either => either.resolve_left (allTaken_taken inside), .inr⟩

/-- The last step of `pmm_init`, which takes the whole pages of the bitmap. -/
theorem Placement.finish (placement : Placement handover before chosen rest) {freed : Pmm}
    (released : (edited handover before chosen rest).foldlM releaseEntry (allTaken handover) = .ok freed)
    (size : freed.bitmapSize = bitmapBytes handover)
    (inside : ∀ page, chosen.range.base / 4096 ≤ page → page < chosen.range.base / 4096 + bitmapBytes handover / 4096 →
      page < 8 * bitmapBytes handover) :
    ∃ pmm, pmmInit handover = .ok (pmm, { handover with mmap := edited handover before chosen rest }) ∧
      Rewritten true (chosen.range.base / 4096) (bitmapBytes handover / 4096) freed pmm := by
  have small := (allTaken_sized handover).small
  have bytes : (allTaken handover).bitmapSize = bitmapBytes handover := rfl
  have fits : bitmapBytes handover / 4096 = 0 ∨
      chosen.range.base / 4096 + bitmapBytes handover / 4096 ≤ 8 * bitmapBytes handover := by
    by_contra beyond
    have last := inside (chosen.range.base / 4096 + bitmapBytes handover / 4096 - 1) (by omega) (by omega)
    omega
  obtain ⟨pmm, marked, set⟩ : ∃ pmm, pmmRangeUsed freed (bitmapRange handover) = .ok pmm ∧
      Rewritten true (chosen.range.base / 4096) (bitmapBytes handover / 4096) freed pmm := by
    rw [placement.range]
    rcases fits with none | fits
    · refine ⟨freed, by simp only [pmmRangeUsed, pmmRange, pageSize, none]; rfl, ?_⟩
      rw [none]
      exact .refl _ _ _
    · obtain ⟨pmm, ran, -, set⟩ := pmmRangeUsed_rewrites freed ⟨chosen.range.base, bitmapBytes handover⟩
        (by omega) (by rw [size]; exact fits)
      exact ⟨pmm, ran, set⟩
  refine ⟨pmm, ?_, set⟩
  rw [placement.run, released, ok_bind, marked, ok_bind]

/-- The bits come out exact. The last step of `pmm_init` counts the bitmap's whole
pages down, which were never counted up. -/
theorem pmmInit_bits (promised : Stivale2 handover) (roomy : ∃ mmap ∈ handover.mmap, Roomy handover mmap)
    (tracked : ∀ page, Within handover.mmap page → page < 8 * bitmapBytes handover) :
    ∃ pmm edited, pmmInit handover = .ok (pmm, edited) ∧ pmm.bitmapSize = bitmapBytes handover ∧
      (∀ page, page < 8 * bitmapBytes handover →
        (isSetPmm pmm page = false ↔ Within handover.mmap page ∧ ¬ Touches (bitmapRange handover) page)) ∧
      pmm.usablePages = wrapSub (clearBits pmm) (bitmapBytes handover / pageSize) := by
  obtain ⟨before, chosen, rest, placement⟩ := promised.placement roomy
  have sized := allTaken_sized handover
  have small := sized.small
  have base := placement.clean.base
  have long := placement.long
  have bytes : (allTaken handover).bitmapSize = bitmapBytes handover := rfl
  obtain ⟨freed, released, all⟩ := release_all sized (placement.edited_clean promised) (placement.edited_apart promised)
    (fun page within => tracked page ((placement.within promised page).mp within).1)
    (fun page within => allTaken_taken (tracked page ((placement.within promised page).mp within).1))
  have size : freed.bitmapSize = bitmapBytes handover := all.size
  -- the whole pages of the bitmap are pages of the entry it was taken from
  have held (page : Nat) (low : chosen.range.base / 4096 ≤ page)
      (high : page < chosen.range.base / 4096 + bitmapBytes handover / 4096) :
      page < 8 * bitmapBytes handover ∧ ¬ freed.Free page := by
    have inside := tracked page ⟨chosen, by simp [placement.split], placement.free, Range.mem_pages.mpr (by omega)⟩
    refine ⟨inside, fun free => ((released_bits placement promised all inside).mp free).2 ?_⟩
    exact (placement.touches page).mpr (by omega)
  obtain ⟨pmm, ran, set⟩ := placement.finish released size fun page low high => (held page low high).1
  have bits (page : Nat) : isSetPmm pmm page = false ↔ isSetPmm freed page = false := by
    rw [isSetPmm_eq, isSetPmm_eq, set.bits]
    split
    next window =>
      have taken := (held page window.1 window.2).2
      exact ⟨fun clear => absurd clear (by decide), fun clear => absurd clear taken⟩
    next => rfl
  refine ⟨pmm, { handover with mmap := edited handover before chosen rest }, ran, set.size.trans size,
    fun page inside => ?_, ?_⟩
  · rw [bits, isSetPmm_eq]
    exact released_bits placement promised all inside
  · have counted := all.counted (allTaken_counted handover)
    have same : clearBits pmm = clearBits freed := by
      unfold clearBits
      rw [set.size]
      congr 1
      ext page
      simp only [Finset.mem_filter, bits]
    have most := clearBits_le freed
    have counter := set.counter
    have word := set.word (by omega)
    simp only [wrap, if_true] at counter
    rw [same]
    simp only [wrapSub, wrap, pageSize]
    omega

/-- The counter comes out exact as long as the bitmap fills no whole page. -/
theorem pmm_init_exact (promised : Stivale2 handover) (roomy : ∃ mmap ∈ handover.mmap, Roomy handover mmap)
    (tracked : ∀ page, Within handover.mmap page → page < 8 * bitmapBytes handover) :
    ∃ pmm edited, pmmInit handover = .ok (pmm, edited) ∧ pmm.bitmapSize = bitmapBytes handover ∧
      (∀ page, page < 8 * bitmapBytes handover →
        (isSetPmm pmm page = false ↔ Within handover.mmap page ∧ ¬ Touches (bitmapRange handover) page)) ∧
      (pmm.usablePages = clearBits pmm ↔ bitmapBytes handover < pageSize) := by
  obtain ⟨pmm, edited, ran, size, bits, counter⟩ := pmmInit_bits promised roomy tracked
  refine ⟨pmm, edited, ran, size, bits, ?_⟩
  have small := (Reached.init ran).sized.small
  have most := clearBits_le pmm
  rw [counter]
  simp only [wrapSub, wrap, pageSize]
  omega

private theorem machine_promised {length : Nat} (pages : length % 4096 = 0) (reach : length + 4096 ≤ 2 ^ 47) :
    Stivale2 (machine length) := by
  refine ⟨by simp [machine], ?_, ?_, ?_⟩
  · simp [machine, pageSize, pages]
  · simp only [machine, List.pairwise_cons, Range.Holds]
    simp
    omega
  · simp [machine]
    omega

private theorem machine_bytes {length : Nat} (reach : length + 4096 ≤ 2 ^ 47) :
    bitmapBytes (machine length) = (length + 4096) / 32768 := by
  show wrap (0x1000 + length) / (4096 * 8) = _
  rw [wrap_of_lt (by omega), Nat.add_comm]

private theorem machine_roomy {length : Nat} (reach : length + 4096 ≤ 2 ^ 47) (some : 0 < length) :
    ∃ mmap ∈ (machine length).mmap, Roomy (machine length) mmap := by
  refine ⟨_, List.mem_cons_of_mem _ (List.mem_singleton_self _), rfl, ?_⟩
  rw [machine_bytes reach]
  dsimp only
  omega

private theorem machine_within {length page : Nat} :
    Within (machine length).mmap page ↔ 1 ≤ page ∧ page < 1 + length / 4096 := by
  simp [Within, machine, Range.mem_pages]

theorem pmm_init_exact_small : ∃ pmm edited, pmmInit smallMachine = .ok (pmm, edited) ∧
    (pmm.usablePages = clearBits pmm ↔ bitmapBytes smallMachine < pageSize) := by
  have reach : 0x17000 + 4096 ≤ 2 ^ 47 := by decide
  have tracked (page : Nat) (within : Within smallMachine.mmap page) : page < 8 * bitmapBytes smallMachine := by
    have inside := machine_within.mp within
    have bytes := machine_bytes reach
    unfold smallMachine
    omega
  obtain ⟨pmm, edited, ran, -, -, exact⟩ :=
    pmm_init_exact (machine_promised (by decide) reach) (machine_roomy reach (by decide)) tracked
  exact ⟨pmm, edited, ran, exact⟩

/-- With 128 MiB of memory the bitmap fills a page, and the counter is one short. -/
theorem pmm_init_short : Stivale2 (machine 0x7fff000) ∧
    (∃ mmap ∈ (machine 0x7fff000).mmap, Roomy (machine 0x7fff000) mmap) ∧
    (∀ page, Within (machine 0x7fff000).mmap page → page < 8 * bitmapBytes (machine 0x7fff000)) ∧
    ∃ pmm edited, pmmInit (machine 0x7fff000) = .ok (pmm, edited) ∧ pmm.usablePages ≠ clearBits pmm := by
  have reach : 0x7fff000 + 4096 ≤ 2 ^ 47 := by decide
  have bytes := machine_bytes reach
  have promised := machine_promised (by decide) reach
  have roomy := machine_roomy reach (by decide)
  have tracked (page : Nat) (within : Within (machine 0x7fff000).mmap page) : page < 8 * bitmapBytes
    (machine 0x7fff000) := by
    have inside := machine_within.mp within
    omega
  obtain ⟨pmm, edited, ran, -, -, counter⟩ := pmmInit_bits promised roomy tracked
  refine ⟨promised, roomy, tracked, pmm, edited, ran, ?_⟩
  rw [counter, bytes]
  simp only [wrapSub, wrap, pageSize]
  omega

theorem pmmRange_inside {touch : Pmm → Nat → Checked Pmm} {pmm after : Pmm} {range : Range}
    (each : ∀ pmm index after, touch pmm index = .ok after → after.bitmapSize = pmm.bitmapSize ∧
      index / 8 < pmm.bitmapSize)
    (small : range.base / 4096 + range.length / 4096 ≤ 2 ^ 64) (ran : pmmRange touch pmm range = .ok after) :
    after.bitmapSize = pmm.bitmapSize ∧ ∀ page ∈ range.pages, page < 8 * pmm.bitmapSize := by
  have step (state : Pmm) (index : Nat) (next : Pmm) (kept : state.bitmapSize = pmm.bitmapSize)
      (turn : touch state (wrap (range.base / pageSize + index)) = .ok next) :
      next.bitmapSize = pmm.bitmapSize ∧ wrap (range.base / pageSize + index) / 8 < pmm.bitmapSize := by
    obtain ⟨size, inside⟩ := each _ _ _ turn
    exact ⟨size.trans kept, kept ▸ inside⟩
  obtain ⟨size, inside⟩ := foldlM_each step rfl ran
  refine ⟨size, fun page member => ?_⟩
  have bounds := Range.mem_pages.mp member
  have this := inside (page - range.base / 4096) (List.mem_range.mpr (by simp only [pageSize]; omega))
  rw [pageSize, Nat.add_sub_cancel' bounds.1, wrap_of_lt (by omega)] at this
  omega

theorem pmmRange_fails {touch : Pmm → Nat → Checked Pmm} {pmm : Pmm} {range : Range} {fault : Fault}
    (each : ∀ pmm index fault, touch pmm index = .error fault → fault = .outOfBounds)
    (ran : pmmRange touch pmm range = .error fault) : fault = .outOfBounds :=
  foldlM_fails (fun state _ fault turn => each state _ fault turn) ran

private theorem bitmapUnused_inside (pmm : Pmm) (index : Nat) (after : Pmm) (ran : bitmapUnused pmm index = .ok after) :
    after.bitmapSize = pmm.bitmapSize ∧ index / 8 < pmm.bitmapSize := by
  refine ⟨bitmapUnused_size pmm index after ran, ?_⟩
  obtain ⟨⟨⟩, inside, -⟩ := bind_ok ran
  exact check_ok inside

private theorem bitmapUsed_inside (pmm : Pmm) (index : Nat) (after : Pmm) (ran : bitmapUsed pmm index = .ok after) :
    after.bitmapSize = pmm.bitmapSize ∧ index / 8 < pmm.bitmapSize := by
  refine ⟨bitmapUsed_size pmm index after ran, ?_⟩
  obtain ⟨⟨⟩, inside, -⟩ := bind_ok ran
  exact check_ok inside

private theorem bitmapUnused_fails (pmm : Pmm) (index : Nat) (fault : Fault)
    (ran : bitmapUnused pmm index = .error fault) : fault = .outOfBounds := by
  by_cases inside : index / 8 < pmm.bitmapSize
  · simp only [bitmapUnused, check_true _ inside] at ran
    cases ran
  · simp only [bitmapUnused, check, if_neg inside] at ran
    exact (Except.error.inj ran).symm

private theorem bitmapUsed_fails (pmm : Pmm) (index : Nat) (fault : Fault) (ran : bitmapUsed pmm index = .error fault) :
    fault = .outOfBounds := by
  by_cases inside : index / 8 < pmm.bitmapSize
  · simp only [bitmapUsed, check_true _ inside] at ran
    cases ran
  · simp only [bitmapUsed, check, if_neg inside] at ran
    exact (Except.error.inj ran).symm

/-- Once the bitmap has its place, an access outside it is all that can go wrong. -/
theorem Placement.fails (placement : Placement handover before chosen rest) {fault : Fault}
    (ran : pmmInit handover = .error fault) : fault = .outOfBounds := by
  rw [placement.run] at ran
  cases released : (edited handover before chosen rest).foldlM releaseEntry (allTaken handover) with
  | error other =>
    rw [released] at ran
    obtain rfl := Except.error.inj ran
    have step (state : Pmm) (mmap : MmapEntry) (fault : Fault) (turn : releaseEntry state mmap = .error fault) :
        fault = .outOfBounds := by
      unfold releaseEntry at turn
      split at turn
      next => exact pmmRange_fails bitmapUnused_fails turn
      next => cases turn
    exact foldlM_fails step released
  | ok freed =>
    rw [released, ok_bind] at ran
    cases marked : pmmRangeUsed freed (bitmapRange handover) with
    | error other =>
      rw [marked] at ran
      cases ran
      exact pmmRange_fails bitmapUsed_fails marked
    | ok used =>
      rw [marked] at ran
      cases ran

/-- Page `page` is the one the bitmap ends in without filling it: no one releases
it and no one takes it. -/
def Tail (handover : Handover) (page : Nat) : Prop :=
  bitmapBytes handover % pageSize ≠ 0 ∧ page = ((bitmapRange handover).base + bitmapBytes handover) / pageSize

theorem Placement.tail (placement : Placement handover before chosen rest) (page : Nat) :
    Tail handover page ↔ bitmapBytes handover % 4096 ≠ 0 ∧
      page = chosen.range.base / 4096 + bitmapBytes handover / 4096 := by
  have base := placement.clean.base
  rw [Tail, placement.range]
  simp only [pageSize]
  omega

/-- A run that came back has touched every usable page but the tail. -/
theorem Placement.inside (placement : Placement handover before chosen rest) (promised : Stivale2 handover)
    {pmm : Pmm} {after : Handover} (ran : pmmInit handover = .ok (pmm, after)) {page : Nat}
    (within : Within handover.mmap page) : page < 8 * bitmapBytes handover ∨ Tail handover page := by
  have clean := placement.clean
  have base := clean.base
  have length := clean.length
  have reach := clean.reach
  have long := placement.long
  rw [placement.run] at ran
  obtain ⟨freed, released, ran⟩ := bind_ok ran
  obtain ⟨used, marked, -⟩ := bind_ok ran
  have step (state : Pmm) (mmap : MmapEntry) (next : Pmm) (kept : state.bitmapSize = bitmapBytes handover)
      (turn : (if mmap.isFree then
          pmmRangeUnused state ⟨alignDown mmap.range.base pageSize, alignUp mmap.range.length pageSize⟩
        else return state) = .ok next) : next.bitmapSize = bitmapBytes handover ∧
        (mmap.isFree → Clean mmap → ∀ page ∈ mmap.range.pages, page < 8 * bitmapBytes handover) := by
    split at turn
    next free =>
      refine ⟨(pmmRange_size bitmapUnused_size turn).trans kept, fun _ clean => ?_⟩
      have reach := clean.reach
      rw [clean.round] at turn
      rw [← kept]
      exact (pmmRange_inside bitmapUnused_inside (by omega) turn).2
    next free =>
      obtain rfl := Except.ok.inj turn
      exact ⟨kept, fun free' => absurd free' free⟩
  obtain ⟨size, each⟩ := foldlM_each step rfl released
  rw [placement.range] at marked
  obtain ⟨-, bitmap⟩ := pmmRange_inside bitmapUsed_inside (by dsimp only; omega) marked
  rw [size] at bitmap
  by_cases touched : Touches (bitmapRange handover) page
  · have touched := (placement.touches page).mp touched
    by_cases whole : page < chosen.range.base / 4096 + bitmapBytes handover / 4096
    · exact .inl (bitmap page (Range.mem_pages.mpr ⟨touched.1, whole⟩))
    · exact .inr ((placement.tail page).mpr (by omega))
  · obtain ⟨mmap, member, free, present⟩ := (placement.within promised page).mpr ⟨within, touched⟩
    exact .inl (each mmap member free (placement.edited_clean promised mmap member free) page present)

/-- `pmm_init` stays inside the bitmap exactly when the bitmap has a bit for every
usable page, the tail apart. The bitmap itself always lies in one usable entry. -/
theorem pmm_init_bounds (promised : Stivale2 handover) (roomy : ∃ mmap ∈ handover.mmap, Roomy handover mmap) :
    (pmmInit handover ≠ .error .outOfBounds ↔
      ∀ page, Within handover.mmap page → page < 8 * bitmapBytes handover ∨ Tail handover page) ∧
    ∃ mmap ∈ handover.mmap, mmap.isFree ∧ (∀ byte, (bitmapRange handover).Holds byte → mmap.range.Holds byte) ∧
      alignUp (bitmapRange handover).length pageSize ≤ mmap.range.length := by
  obtain ⟨before, chosen, rest, placement⟩ := promised.placement roomy
  have long := placement.long
  have base := placement.clean.base
  have length := placement.clean.length
  refine ⟨⟨?_, ?_⟩, chosen, by simp [placement.split], placement.free, ?_, ?_⟩
  · intro bounded page within
    cases ran : pmmInit handover with
    | error fault =>
      rw [placement.fails ran] at ran
      exact absurd ran bounded
    | ok result => exact placement.inside promised ran within
  · intro tracked
    have released (page : Nat) (within : Within (edited handover before chosen rest) page) : page <
      8 * bitmapBytes handover := by
      obtain ⟨usable, untouched⟩ := (placement.within promised page).mp within
      rcases tracked page usable with inside | tail
      · exact inside
      · rw [placement.tail] at tail
        exact absurd ((placement.touches page).mpr (by omega)) untouched
    obtain ⟨freed, ran, all⟩ := release_all (allTaken_sized handover) (placement.edited_clean promised)
      (placement.edited_apart promised) released (fun page within => allTaken_taken (released page within))
    obtain ⟨pmm, returned, -⟩ := placement.finish ran all.size fun page low high => by
      rcases tracked page ⟨chosen, by simp [placement.split], placement.free, Range.mem_pages.mpr
        (by omega)⟩ with inside | tail
      · exact inside
      · rw [placement.tail] at tail
        omega
    rw [returned]
    exact fun stopped => by cases stopped
  · intro byte held
    rw [placement.range] at held
    exact ⟨held.1, by have := held.2; dsimp only at this; omega⟩
  · rw [placement.range]
    exact placement.taken.2

theorem pmm_init_bounds_small : pmmInit smallMachine ≠ .error .outOfBounds := by
  have reach : 0x17000 + 4096 ≤ 2 ^ 47 := by decide
  refine (pmm_init_bounds (machine_promised (by decide) reach)
    (machine_roomy reach (by decide))).1.mpr fun page within => ?_
  have inside := machine_within.mp within
  have bytes := machine_bytes reach
  omega

/-- 25 pages: the last one has no bit in the three bytes of the bitmap. -/
theorem pmm_init_beyond : Stivale2 (machine 0x18000) ∧ (∃ mmap ∈ (machine 0x18000).mmap, Roomy (machine 0x18000) mmap) ∧
    pmmInit (machine 0x18000) = .error .outOfBounds := by
  have reach : 0x18000 + 4096 ≤ 2 ^ 47 := by decide
  have promised := machine_promised (by decide) reach
  have roomy := machine_roomy reach (by decide)
  refine ⟨promised, roomy, ?_⟩
  obtain ⟨before, chosen, rest, placement⟩ := promised.placement roomy
  have stops : (pmmInit (machine 0x18000)).isOk = false := by decide +kernel
  cases ran : pmmInit (machine 0x18000) with
  | error fault => rw [placement.fails ran]
  | ok result =>
    rw [ran] at stops
    cases stops

end Pmm
end Navy
