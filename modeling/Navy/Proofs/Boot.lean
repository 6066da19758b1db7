import Navy.Proofs.Ledger
import Navy.Proofs.Supply

/-! What boot leaves behind: every frame the allocator has is in the direct map,
and memory it does not have is as the boot loader left it. -/

namespace Navy.Paging
open Outcome

variable {roots : Nat → Prop}

/-- The tables on the way to every page of a mapped range exist. -/
theorem vmmMapRange_reaches {vm after : Vm} {root : Nat} {virt phys : Range} {isUser : Bool} (spaces : Spaces roots vm)
    (isRoot : roots root) (ran : vmmMapRange vm (mmapPhysToIo root) virt phys isUser = .ok after) (place : Nat → Nat)
    (address : ∀ index, index < virt.length / 4096 →
      wrap (index * pageSize + alignDown virt.base pageSize) = place index)
    (canonical : ∀ index, index < virt.length / 4096 → Canonical (place index))
    (touchable : ∀ index, index < virt.length / 4096 → Touchable roots vm root (place index)) {index : Nat}
    (inside : index < virt.length / 4096) : (follow after.mem root (pathOf (place index))).isSome := by
  obtain ⟨_, _, ran⟩ := bind_ok ran
  have done := foldlM_range_keeps (fun turn state => (Spaces roots state ∧ Grows roots vm state) ∧
    ∀ index < turn, (follow state.mem root (pathOf (place index))).isSome) ?_ ⟨⟨spaces, .refl _ _⟩, nofun⟩ ran
  · exact done.2 index inside
  · rintro turn middle after inside ⟨⟨spaces, grows⟩, tables⟩ last
    rw [address turn inside] at last
    have here := (touchable turn inside).grow grows isRoot
    have mapped := vmmMapPage_ok spaces.toForest isRoot last
    have updated := mapped.updated spaces isRoot (canonical turn inside) here
    refine ⟨⟨updated.spaces, grows.trans updated.grows⟩, fun index before => ?_⟩
    rcases Nat.lt_succ_iff_lt_or_eq.mp before with earlier | rfl
    · obtain ⟨table, reached⟩ := Option.isSome_iff_exists.mp (tables index earlier)
      exact Option.isSome_iff_exists.mpr ⟨table, mapped.grows.paths root _ table isRoot (by simp [pathOf]) reached⟩
    · obtain ⟨table, reached⟩ := mapped.reached
      exact Option.isSome_iff_exists.mpr ⟨table, reached⟩

/-- The top-level slot an address falls into leads somewhere. -/
def Slotted (mem : Bytes) (root virt : Nat) : Prop := (tableEntry mem root (pml4GetIndex virt)).present = true

theorem slotted_of_tables {mem : Bytes} {root virt : Nat} (tables : (follow mem root (pathOf virt)).isSome) :
    Slotted mem root virt := by
  obtain ⟨pml3, pml2, pml1, links⟩ := follow_links tables
  exact child_present.mp (Option.isSome_iff_exists.mpr ⟨pml3, links.top⟩)

theorem Grows.slotted {before after : Vm} (grows : Grows roots before after) {root virt : Nat} (isRoot : roots root)
    (slotted : Slotted before.mem root virt) : Slotted after.mem root virt := by
  obtain ⟨table, linked⟩ := Option.isSome_iff_exists.mp (child_present.mpr slotted)
  exact child_present.mp (Option.isSome_iff_exists.mpr ⟨table, grows.child isRoot linked⟩)

/-- The address of a page in the direct map. -/
def directPage (page : Nat) : Nat := wrap (page * 4096 + mmapIoBase)

/-- One round of `vmm_init` puts the whole entry into the direct map. -/
theorem vmmInitEntry_slots {kernel : Nat} {vm after : Vm} {mmap : MmapEntry} (spaces : Spaces (· = kernel) vm)
    (own : KernelSpace kernel vm) (addressable : Addressable mmap) (ran : vmmInitEntry vm mmap = .ok after) {page : Nat}
    (inside : page ∈ (initRange mmap).pages) : Slotted after.mem kernel (directPage page) := by
  obtain ⟨base, length⟩ := initRange_small addressable
  have place := Range.mem_pages.mp inside
  obtain ⟨middle, spaces, own, -, -, last⟩ := vmmInitEntry_last spaces own addressable ran
  rw [own.pml4] at last
  have tables := vmmMapRange_reaches spaces rfl last
    (fun index => wrap ((initRange mmap).base + index * 4096 + mmapIoBase))
    (fun index _ => direct_address base index)
    (fun index inside => (direct_place (by simp only at inside; omega)).1) (fun _ _ => .inr (.inr fun _ same => same))
    (show page - (initRange mmap).base / 4096 < (initRange mmap).length / 4096 by omega)
  rw [show (initRange mmap).base + (page - (initRange mmap).base / 4096) * 4096 = page * 4096 by omega] at tables
  exact slotted_of_tables tables

/-- The machine after `vmm_init`, for an allocator that began as `pmm`. -/
structure Booted (mem : Bytes) (pmm : Pmm) (entries : List MmapEntry) (kernel : Nat) (vm : Vm) : Prop where
  spaces : Spaces (· = kernel) vm
  own : KernelSpace kernel vm
  foreign : ∀ page, ¬ Available pmm page → Reserved (· = kernel) vm page
  bytes : ∀ place, ¬ Available pmm (place / 4096) → vm.mem place = mem place
  slots : ∀ mmap ∈ entries, ∀ page ∈ (initRange mmap).pages, Slotted vm.mem kernel (directPage page)

theorem Booted.grow {mem : Bytes} {pmm : Pmm} {entries : List MmapEntry} {kernel : Nat} {vm after : Vm}
    (booted : Booted mem pmm entries kernel vm) (spaces : Spaces (· = kernel) after) (own : KernelSpace kernel after)
    (grows : Grows (· = kernel) vm after) : Booted mem pmm entries kernel after := by
  refine ⟨spaces, own, fun page held => grows.reserved (booted.foreign page held), fun place held =>
    ?_, fun mmap member page inside => ?_⟩
  · exact (grows.reserved_byte (booted.foreign _ held)).trans (booted.bytes place held)
  · exact grows.slotted rfl (booted.slots mmap member page inside)

theorem vmmInit_booted {mem : Bytes} {pmm : Pmm} {handover : Handover} {vm : Vm} (sized : pmm.Sized)
    (addressable : ∀ mmap ∈ handover.mmap, Addressable mmap) (ran : vmmInit mem pmm handover = .ok vm) :
    ∃ kernel, Booted mem pmm handover.mmap kernel vm := by
  obtain ⟨⟨range, middle⟩, allocated, ran⟩ := bind_ok ran
  obtain ⟨_, positive, ran⟩ := bind_ok ran
  obtain ⟨low, mapped, ran⟩ := bind_ok ran
  obtain ⟨spaces, own⟩ := vmmInit_root sized allocated (check_ok positive)
  obtain ⟨taken, -, same⟩ := alloc_ok (show (Vm.mk mem pmm 0 []).pmm.Sized from sized) allocated
  have fresh := allocated_of_taken sized taken (check_ok positive)
  have root : Booted mem pmm [] range.base { middle with
      mem := memset middle.mem (mmapPhysToIo range.base) 0 pageSize, kernelPml4 := mmapPhysToIo range.base } := by
    refine ⟨spaces, own, fun page held => ⟨fun free => held (fresh.rest page free), fun table isTable same => ?_⟩,
      fun place held => ?_, nofun⟩
    · obtain ⟨_, path, rfl, -, hit⟩ := isTable
      have empty (index : Nat) : child (tableEntry
        (memset middle.mem (mmapPhysToIo range.base) 0 pageSize) range.base index) = none := by
        have small := fresh.small
        unfold memset
        rw [phys_io _ (by omega), pageSize, tableEntry_zero _ fresh.aligned]
        simp [child_empty]
      cases path with
      | nil =>
        obtain rfl := Option.some.inj hit
        exact held (same ▸ fresh.was)
      | cons index path =>
        dsimp only [follow, RadixForest.follow] at hit
        rw [empty] at hit
        cases hit
    · have small := fresh.small
      have aligned := fresh.aligned
      have apart : place / 4096 ≠ range.base / 4096 := fun clash => held (clash ▸ fresh.was)
      dsimp only
      unfold memset
      rw [phys_io _ (by omega), pageSize, Bytes.fill_apart _ _ _ _ _ (by omega), same]
  obtain ⟨spaces, own, grows⟩ :=
    vmmMapRange_kernel root.spaces root.own mapped (fun index => wrap (0 + index * 4096 + mmapIoBase))
    (fun index _ => direct_address (by decide) index)
    (fun index inside => direct_place (by simp only at inside; omega))
  have start := root.grow spaces own grows
  clear mapped grows
  -- the entries the loop has been through are in the direct map
  have loop (entries rest : List MmapEntry) (member : ∀ mmap ∈ rest, Addressable mmap) (vm after : Vm)
      (booted : Booted mem pmm entries range.base vm) (ran : rest.foldlM vmmInitEntry vm = .ok after) :
      Booted mem pmm (entries ++ rest) range.base after := by
    induction rest generalizing entries vm with
    | nil =>
      obtain rfl := Except.ok.inj ran
      rwa [List.append_nil]
    | cons mmap rest ih =>
      rw [List.foldlM_cons] at ran
      obtain ⟨next, first, last⟩ := bind_ok ran
      have addressable := member mmap List.mem_cons_self
      obtain ⟨spaces, own, grows⟩ := vmmInitEntry_ok booted.spaces booted.own addressable first
      have grown := booted.grow spaces own grows
      have more : Booted mem pmm (entries ++ [mmap]) range.base next := by
        refine ⟨spaces, own, grown.foreign, grown.bytes, fun other among page inside => ?_⟩
        rcases List.mem_append.mp among with earlier | last
        · exact grown.slots other earlier page inside
        · obtain rfl := List.mem_singleton.mp last
          exact vmmInitEntry_slots booted.spaces booted.own addressable first inside
      have done := ih (entries ++ [mmap])
        (fun other among => member other (List.mem_cons_of_mem _ among)) next more last
      rwa [List.append_assoc, List.singleton_append] at done
  exact ⟨range.base, loop [] handover.mmap addressable _ _ start ran⟩

/-- An entry of a memory map that fits. -/
structure MmapEntry.Fine (mmap : MmapEntry) : Prop where
  low : mmap.range.base + mmap.range.length ≤ 2 ^ 46
  aligned : mmap.isFree → mmap.range.base % 4096 = 0 ∧ mmap.range.length % 4096 = 0

theorem placeBitmap_fine (size bitmap : Nat) {entries : List MmapEntry} (fine : ∀ mmap ∈ entries, MmapEntry.Fine mmap) :
    ∀ mmap ∈ (placeBitmap size bitmap entries).2, MmapEntry.Fine mmap := by
  induction entries generalizing bitmap with
  | nil => exact nofun
  | cons first rest ih =>
    have others {bitmap : Nat} : ∀ mmap ∈ (placeBitmap size bitmap rest).2, MmapEntry.Fine mmap :=
      ih _ fun mmap member => fine mmap (List.mem_cons_of_mem _ member)
    have here := fine first List.mem_cons_self
    unfold placeBitmap
    split
    next taken =>
      intro mmap member
      rcases List.mem_cons.mp member with rfl | member
      · obtain ⟨-, free, smaller⟩ := taken
        have low := here.low
        obtain ⟨base, length⟩ := here.aligned free
        have room := alignUp_page size (by omega)
        refine ⟨?_, fun _ => ?_⟩
        · simp only [room, wrap, wrapSub]
          omega
        · simp only [room, wrap, wrapSub]
          omega
      · exact others mmap member
    next =>
      intro mmap member
      rcases List.mem_cons.mp member with rfl | member
      · exact here
      · exact others mmap member

/-- A page is freed only by a range it lies in. -/
theorem pmmRangeUnused_frees {pmm after : Pmm} {range : Range} (small : range.base + range.length ≤ 2 ^ 46)
    (ran : pmmRangeUnused pmm range = .ok after) {page : Nat} (free : after.Free page) :
    pmm.Free page ∨ page ∈ range.pages := by
  have step (state : Pmm) (index : Nat) (next : Pmm) (member : index ∈ List.range (range.length / pageSize))
      (kept : state.Free page → pmm.Free page ∨ page ∈ range.pages)
      (turn : bitmapUnused state (wrap (range.base / pageSize + index)) = .ok next) :
      next.Free page → pmm.Free page ∨ page ∈ range.pages := by
    obtain ⟨⟨⟩, inside, rest⟩ := bind_ok turn
    obtain rfl := Except.ok.inj rest
    intro free
    have inside := List.mem_range.mp member
    by_cases here : page = wrap (range.base / pageSize + index)
    · subst here
      refine .inr (Range.mem_pages.mpr ?_)
      simp only [wrap, pageSize] at inside ⊢
      omega
    · apply kept
      change (state.bitmap.clearBit (wrap (range.base / pageSize + index))).bit page = false at free
      rw [Bytes.bit_clearBit, decide_eq_false here] at free
      simpa [Pmm.Free] using free
  exact foldlM_keeps step .inl ran free

/-- A page is taken by a range or was taken before. -/
theorem pmmRangeUsed_frees {pmm after : Pmm} {range : Range} (ran : pmmRangeUsed pmm range = .ok after) {page : Nat}
    (free : after.Free page) : pmm.Free page := by
  have step (state : Pmm) (index : Nat) (next : Pmm) (_ : index ∈ List.range (range.length / pageSize))
      (kept : state.Free page → pmm.Free page)
        (turn : bitmapUsed state (wrap (range.base / pageSize + index)) = .ok next) :
      next.Free page → pmm.Free page := by
    obtain ⟨⟨⟩, -, rest⟩ := bind_ok turn
    obtain rfl := Except.ok.inj rest
    intro free
    apply kept
    change (state.bitmap.setBit (wrap (range.base / pageSize + index))).bit page = false at free
    rw [Bytes.bit_setBit] at free
    simp only [Bool.or_eq_false_iff] at free
    exact free.2
  exact foldlM_keeps step id ran free

/-- What the allocator starts with are frames of the memory map, all of which
`vmm_init` will map. -/
theorem pmmInit_available {handover edited : Handover} {pmm : Pmm} (fits : handover.Fits)
    (ran : pmmInit handover = .ok (pmm, edited)) :
    (∀ mmap ∈ edited.mmap, Addressable mmap) ∧
      ∀ page, Available pmm page → ∃ mmap ∈ edited.mmap, page ∈ (initRange mmap).pages := by
  unfold pmmInit at ran
  split at ran
  next last same =>
    dsimp only [ok_bind] at ran
    obtain ⟨⟨⟩, -, ran⟩ := bind_ok ran
    obtain ⟨freed, loop, ran⟩ := bind_ok ran
    obtain ⟨used, marked, rest⟩ := bind_ok ran
    obtain ⟨rfl, rfl⟩ := Prod.mk.inj (Except.ok.inj rest)
    generalize placed : placeBitmap (wrap (last.range.base + last.range.length) / (pageSize * 8)) 0 handover.mmap =
      result at *
    obtain ⟨bitmap, entries⟩ := result
    have fine : ∀ mmap ∈ entries, MmapEntry.Fine mmap := by
      have fine := placeBitmap_fine (wrap (last.range.base + last.range.length) / (pageSize * 8)) 0
        (fun mmap member => MmapEntry.Fine.mk (fits.low mmap member) (fits.aligned mmap member))
      rwa [placed] at fine
    refine ⟨fun mmap member => (fine mmap member).low, fun page available => ?_⟩
    obtain ⟨inside, free⟩ := available
    have step (state : Pmm) (mmap : MmapEntry) (next : Pmm) (member : mmap ∈ entries)
        (kept : state.bitmapSize = wrap (last.range.base + last.range.length) / (pageSize * 8) ∧
          (state.Free page → page / 8 < state.bitmapSize → ∃ mmap ∈ entries, page ∈ (initRange mmap).pages))
        (turn : (if mmap.isFree then
          pmmRangeUnused state ⟨alignDown mmap.range.base pageSize, alignUp mmap.range.length pageSize⟩
        else return state) = .ok next) :
        next.bitmapSize = wrap (last.range.base + last.range.length) / (pageSize * 8) ∧
          (next.Free page → page / 8 < next.bitmapSize → ∃ mmap ∈ entries, page ∈ (initRange mmap).pages) := by
      split at turn
      next isFree =>
        have low := (fine mmap member).low
        obtain ⟨base, length⟩ := (fine mmap member).aligned isFree
        have down : alignDown mmap.range.base pageSize = mmap.range.base := by
          rw [alignDown_page, wrap_of_lt (by omega)]
          omega
        have up : alignUp mmap.range.length pageSize = mmap.range.length := by
          rw [alignUp_page _ (by omega)]
          omega
        rw [down, up] at turn
        have size := Pmm.pmmRange_size Pmm.bitmapUnused_size turn
        refine ⟨size.trans kept.1, fun free below => ?_⟩
        rcases pmmRangeUnused_frees low turn free with old | new
        · exact kept.2 old (size ▸ below)
        · refine ⟨mmap, member, Range.mem_pages.mpr ?_⟩
          have new := Range.mem_pages.mp new
          simp only [initRange, down, up] at new ⊢
          simp only [wrap, pageSize]
          omega
      next =>
        obtain rfl := Except.ok.inj turn
        exact kept
    have ones : ∀ place < 8, (255#8).getLsbD place = true := by decide
    have done := foldlM_keeps step ⟨rfl, fun free below => ?_⟩ loop
    · have size := Pmm.pmmRange_size Pmm.bitmapUsed_size marked
      exact done.2 (pmmRangeUsed_frees marked free) (by omega)
    · change (Bytes.fill (fun _ => 0) 0 _ 0xff).bit page = false at free
      rw [Bytes.bit, Bytes.fill_inside _ _ _ _ _ (Nat.zero_le _) (by simpa using below)] at free
      exact absurd (ones (page % 8) (Nat.mod_lt _ (by decide)))
        (by simp [show BitVec.getLsbD 255#8 (page % 8) = false from free])
  next => cases ran

end Navy.Paging
