import Navy.Proofs.Boot
import Navy.Proofs.ProcessTable

/-! What the kernel's operations on memory do to the whole machine, whichever
space they go through: heap calls, allocations, mappings. -/

namespace Navy.Paging
open Outcome

variable {roots : Nat → Prop} {initial : Pmm} {root : Nat} {kind : Owner → Prop} {moved : Nat → Nat → Prop}
  {vm middle after : Vm}

/-- What an operation took had been free. -/
theorem Entered.was {added : List (Owner × Range)} (entered : Entered kind vm added after)
    (ledger : Ledger initial vm) {entry : Owner × Range} (member : entry ∈ added) {page : Nat}
    (inside : page ∈ entry.2.pages) :
    Available vm.pmm page := by
  have accounts := entered.accounts initial _ ledger.sized ledger.accounts
  have among : entry.2 ∈ added.map Prod.snd := List.mem_map_of_mem member
  have bound := accounts.bound entry.2 (List.mem_append_left _ among)
  have fresh := accounts.fresh entry.2 (List.mem_append_left _ among) page inside
  have place := Range.mem_pages.mp inside
  have size := ledger.accounts.size
  refine ⟨by omega, ?_⟩
  by_contra taken
  have set : vm.pmm.bitmap.bit page = true := by simpa [Pmm.Free] using taken
  rcases (ledger.accounts.bits page).mp set with start | ⟨range, live, here⟩
  · rw [fresh] at start
    cases start
  · exact (List.pairwise_append.mp accounts.apart).2.2 entry.2 among range live page inside here

theorem Ledger.gone (ledger : Ledger initial vm) {entry : Owner × Range} (member : entry ∈ vm.owners) {page : Nat}
    (inside : page ∈ entry.2.pages) : ¬ Available vm.pmm page := by
  rintro ⟨-, free⟩
  have set := (ledger.accounts.bits page).mpr (.inr ⟨entry.2, List.mem_map_of_mem member, inside⟩)
  rw [free] at set
  cases set

/-- What is in the ledger for another purpose is not the heap's. -/
theorem Ledger.unheaped (ledger : Ledger initial vm) {entry : Owner × Range} (member : entry ∈ vm.owners)
    (other : entry.1 ≠ .heap) {place : Nat} (inside : place / 4096 ∈ entry.2.pages) :
    heapOwned vm place = false := by
  apply Bool.eq_false_iff.mpr
  intro owned
  obtain ⟨block, among, here⟩ := List.any_eq_true.mp owned
  simp only [Bool.and_eq_true, beq_iff_eq, decide_eq_true_eq] at here
  obtain ⟨⟨heap, low⟩, high⟩ := here
  have aligned := ledger.accounts.aligned block.2 (List.mem_map_of_mem among)
  have different : block ≠ entry := fun same => other (same ▸ heap)
  have order := List.perm_cons_erase member
  refine ledger.apart order ((List.mem_erase_of_ne different).mpr among) inside (Range.mem_pages.mpr ?_)
  omega

/-- As `Grows`, for operations that may write to the heap. -/
structure Moves (roots : Nat → Prop) (before after : Vm) : Prop where
  kernel : after.kernelPml4 = before.kernelPml4
  paths : ∀ root path table, roots root → path.length ≤ 3 →
    follow before.mem root path = some table → follow after.mem root path = some table
  fresh : ∀ table, IsTable roots after.mem table → IsTable roots before.mem table ∨ Available before.pmm (table / 4096)
  available : ∀ page, Available after.pmm page → Available before.pmm page
  bytes : ∀ place, ¬ Available before.pmm (place / 4096) →
    (∀ table, IsTable roots before.mem table → place / 4096 ≠ table / 4096) →
    heapOwned before place = false → after.mem place = before.mem place

theorem Grows.moves (grows : Grows roots vm after) : Moves roots vm after :=
  ⟨grows.kernel, grows.paths, grows.fresh, grows.available, fun place held apart _ => grows.bytes place held apart⟩

theorem Moves.reserved (moves : Moves roots vm after) {page : Nat} (reserved : Reserved roots vm page) :
    Reserved roots after page := by
  refine ⟨fun free => reserved.held (moves.available page free), fun table isTable same => ?_⟩
  rcases moves.fresh table isTable with old | new
  · exact reserved.apart table old same
  · exact reserved.held (same ▸ new)

theorem Moves.slotted (moves : Moves roots vm after) {virt : Nat} (isRoot : roots root)
    (slotted : Slotted vm.mem root virt) : Slotted after.mem root virt := by
  obtain ⟨table, linked⟩ := Option.isSome_iff_exists.mp (child_present.mpr slotted)
  rw [← follow_single] at linked
  have kept := moves.paths root _ table isRoot (by simp) linked
  rw [follow_single] at kept
  exact child_present.mp (Option.isSome_iff_exists.mpr ⟨table, kept⟩)

theorem directPage_eq {page : Nat} (small : page < 2 ^ 34) : directPage page = page * 4096 + mmapIoBase := by
  unfold directPage
  exact wrap_of_lt (by simp only [mmapIoBase]; omega)

theorem directPage_kernel {page : Nat} (small : page < 2 ^ 34) : Canonical (directPage page) ∧
    ¬ UserHalf (directPage page) := by
  rw [directPage_eq small]
  simp only [Canonical, UserHalf, mmapIoBase]
  omega

/-- A machine whose spaces share their kernel half, whose ledger is right and in
which every frame the allocator ever had can be mapped by all of them. -/
structure Sane (initial : Pmm) (roots : Nat → Prop) (root : Nat) (vm : Vm) : Prop where
  ledger : Ledger initial vm
  spaces : Spaces roots vm
  isRoot : roots root
  own : KernelSpace root vm
  held : ∀ entry ∈ vm.owners, entry.1 ≠ .root → entry.1 ≠ .table → ∀ page ∈ entry.2.pages, Reserved roots vm page
  slots : ∀ page, Available initial page → Slotted vm.mem root (directPage page)

/-- The heap is open to user mode in every space. -/
def Opened (roots : Nat → Prop) (vm : Vm) : Prop :=
  ∀ entry ∈ vm.owners, entry.1 = .heap → ∀ page ∈ entry.2.pages, ∀ other, roots other →
    walk vm.mem other (directPage page) = some ⟨page * 4096, true, true⟩

/-- An operation that takes memory for some purpose and leaves the machine sound.
Frames that were not free keep their place in the direct map, and user addresses
keep their meaning but where `moved` says otherwise. -/
structure Took (initial : Pmm) (roots : Nat → Prop) (root : Nat) (kind : Owner → Prop) (moved : Nat → Nat → Prop)
    (vm after : Vm) : Prop where
  sound : Sane initial roots root after
  moves : Moves roots vm after
  enters : Enters kind vm after
  user : ∀ other virt, roots other → UserHalf virt → ¬ moved other virt → walk after.mem other virt =
    walk vm.mem other virt
  direct : ∀ other page, roots other → page < 2 ^ 34 → ¬ Available vm.pmm page →
    walk after.mem other (directPage page) = walk vm.mem other (directPage page)
  opened : Opened roots vm → Opened roots after

theorem Took.refl (sound : Sane initial roots root vm) (kind : Owner → Prop) (moved : Nat → Nat → Prop) :
    Took initial roots root kind moved vm vm :=
  ⟨sound, (Grows.refl _ _).moves, .refl _ _, fun _ _ _ _ _ => rfl, fun _ _ _ _ _ => rfl, id⟩

theorem Took.mono {more : Owner → Prop} {wider : Nat → Nat → Prop} (took : Took initial roots root kind moved vm after)
    (weaker : ∀ owner, kind owner → more owner) (within : ∀ other virt, moved other virt → wider other virt) :
    Took initial roots root more wider vm after :=
  ⟨took.sound, took.moves, took.enters.mono weaker,
    fun other virt isRoot half still => took.user other virt isRoot half fun hit => still (within other virt hit),
      took.direct, took.opened⟩

/-- What adds nothing to the heap leaves it open. -/
theorem Opened.keep (opened : Opened roots vm) (ledger : Ledger initial vm) (enters : Enters kind vm after)
    (other : ∀ owner, kind owner → owner ≠ .heap)
    (direct : ∀ other page, roots other → page < 2 ^ 34 → ¬ Available vm.pmm page →
      walk after.mem other (directPage page) = walk vm.mem other (directPage page)) : Opened roots after := by
  obtain ⟨added, entered⟩ := enters
  intro entry member heap page inside space isSpace
  rw [entered.owners] at member
  rcases List.mem_append.mp member with new | old
  · exact absurd heap (other _ (entered.kinds entry new))
  · have small : page < 2 ^ 34 := by
      have bound := ledger.accounts.bound entry.2 (List.mem_map_of_mem old)
      have place := Range.mem_pages.mp inside
      have most := ledger.bound
      omega
    rw [direct space page isSpace small (ledger.gone old inside)]
    exact opened entry old heap page inside space isSpace

/-- A byte outside the heap stays outside while its page is not free. -/
theorem Enters.outside (enters : Enters kind vm after) (ledger : Ledger initial vm) {place : Nat}
    (held : ¬ Available vm.pmm (place / 4096)) (outside : heapOwned vm place = false) :
    heapOwned after place = false := by
  obtain ⟨added, entered⟩ := enters
  unfold heapOwned at outside ⊢
  rw [entered.owners, List.any_append, outside, Bool.or_false, List.any_eq_false]
  intro entry member inside
  simp only [Bool.and_eq_true, decide_eq_true_eq] at inside
  have accounts := entered.accounts initial _ ledger.sized ledger.accounts
  have aligned := accounts.aligned entry.2 (List.mem_append_left _ (List.mem_map_of_mem member))
  exact held (entered.was ledger member (Range.mem_pages.mpr (by omega)))

theorem Took.trans (ledger : Ledger initial vm) (first : Took initial roots root kind moved vm middle)
    (last : Took initial roots root kind moved middle after) : Took initial roots root kind moved vm after := by
  refine ⟨last.sound, ⟨last.moves.kernel.trans first.moves.kernel, ?_, ?_, ?_, ?_⟩, first.enters.trans last.enters,
    fun other virt isRoot half still => (last.user other virt isRoot half still).trans
      (first.user other virt isRoot half still), ?_,
    fun opened => last.opened (first.opened opened)⟩
  · intro root path table isRoot short hit
    exact last.moves.paths root path table isRoot short (first.moves.paths root path table isRoot short hit)
  · intro table isTable
    rcases last.moves.fresh table isTable with old | new
    · exact first.moves.fresh table old
    · exact .inr (first.moves.available _ new)
  · exact fun page free => first.moves.available page (last.moves.available page free)
  · intro place held apart outside
    have early := first.moves.bytes place held apart outside
    refine (last.moves.bytes place (fun free => held (first.moves.available _ free)) ?_
      (first.enters.outside ledger held outside)).trans early
    intro table isTable same
    rcases first.moves.fresh table isTable with old | new
    · exact apart table old same
    · exact held (same ▸ new)
  · intro other page isRoot small held
    rw [last.direct other page isRoot small fun free => held (first.moves.available page free)]
    exact first.direct other page isRoot small held

section Direct

variable {range : Range} (top : range.base + range.length ≤ 2 ^ 46)
include top

/-- Where the direct map has a range of frames. -/
theorem directRange_base : mmapPhysToIo range.base = range.base + mmapIoBase := by
  unfold mmapPhysToIo
  exact wrap_of_lt (by simp only [mmapIoBase]; omega)

theorem directRange_proper (base : range.base % 4096 = 0) (length : range.length % 4096 = 0) :
    Proper ⟨mmapPhysToIo range.base, range.length⟩ := by
  rw [directRange_base top]
  refine ⟨?_, length, ?_, fun virt first last => ?_⟩
  · simp only [mmapIoBase]
    omega
  · simp only [mmapIoBase]
    omega
  · simp only [Canonical, mmapIoBase] at *
    omega

theorem directRange_pages {page : Nat} (small : page < 2 ^ 34) :
    directPage page / 4096 ∈ Range.pages ⟨mmapPhysToIo range.base, range.length⟩ ↔ page ∈ range.pages := by
  rw [Range.mem_pages, Range.mem_pages, directRange_base top, directPage_eq small]
  simp only [mmapIoBase]
  omega

theorem directRange_slot {virt : Nat} (first : mmapPhysToIo range.base ≤ virt)
    (last : virt < mmapPhysToIo range.base + range.length) (base : range.base % 4096 = 0)
    (length : range.length % 4096 = 0) :
    ∃ page ∈ range.pages, page < 2 ^ 34 ∧ pml4GetIndex virt = pml4GetIndex (directPage page) := by
  rw [directRange_base top] at first last
  have inside : (virt - mmapIoBase) / 4096 ∈ range.pages :=
    Range.mem_pages.mpr (by simp only [mmapIoBase] at *; omega)
  have small : (virt - mmapIoBase) / 4096 < 2 ^ 34 := by omega
  refine ⟨_, inside, small, ?_⟩
  have direct := directPage_eq small
  rw [direct]
  simp only [pml4GetIndex, pmlxGetIndex_eq, wrap, mmapIoBase] at *
  omega

end Direct

namespace Sane

theorem small (sound : Sane initial roots root vm) {page : Nat} (free : Available vm.pmm page) : page < 2 ^ 34 :=
  Nat.lt_of_lt_of_le free.1 sound.ledger.small

/-- Frames free now were free at the start. -/
theorem initially (sound : Sane initial roots root vm) {page : Nat} (free : Available vm.pmm page) :
    Available initial page :=
  ⟨sound.ledger.accounts.size ▸ free.1, (sound.ledger.accounts.free free.2).1⟩

theorem grow (sound : Sane initial roots root vm) (spaces : Spaces roots after) (moves : Moves roots vm after)
    (enters : Enters kind vm after) (hole : tableEntry after.mem root 255 = tableEntry vm.mem root 255)
    (held : ∀ added, after.owners = added ++ vm.owners → ∀ entry ∈ added, entry.1 ≠ .root → entry.1 ≠ .table →
      ∀ page ∈ entry.2.pages, Reserved roots after page) : Sane initial roots root after := by
  have ledger := enters.ledger sound.ledger
  obtain ⟨added, entered⟩ := enters
  refine ⟨ledger, spaces, sound.isRoot, ⟨moves.kernel.trans sound.own.pml4, hole.trans sound.own.hole⟩, ?_, ?_⟩
  · intro entry member notRoot notTable page inside
    rw [entered.owners] at member
    rcases List.mem_append.mp member with new | old
    · exact held added entered.owners entry new notRoot notTable page inside
    · exact moves.reserved (sound.held entry old notRoot notTable page inside)
  · exact fun page free => moves.slotted sound.isRoot (sound.slots page free)

theorem allocated (sound : Sane initial roots root vm) {owner : Owner} {amount : Nat} {range : Range}
    (ran : vm.alloc owner amount = .ok (range, after)) :
    Sane initial roots root after ∧ Grows roots vm after ∧ after.mem = vm.mem ∧
      after.owners = (owner, range) :: vm.owners ∧
      ∀ page ∈ range.pages, Available vm.pmm page ∧ Reserved roots after page := by
  obtain ⟨spaces, grows, same, fresh⟩ := sound.spaces.allocated ran
  have entered := alloc_entered ran
  refine ⟨sound.grow spaces grows.moves ⟨_, entered⟩ (by rw [same]) ?_, grows, same, entered.owners, fresh⟩
  intro added owners entry member _ _ page inside
  rw [entered.owners] at owners
  obtain rfl := List.append_cancel_right owners
  obtain rfl := List.mem_singleton.mp member
  exact (fresh page inside).2

theorem alloc (sound : Sane initial roots root vm) {owner : Owner} {amount : Nat} {range : Range}
    (other : owner ≠ .heap) (ran : vm.alloc owner amount = .ok (range, after)) :
    Took initial roots root (· = owner) moved vm after := by
  obtain ⟨sound', grows, same, -, -⟩ := sound.allocated ran
  have direct (space page : Nat) (_ : roots space) (_ : page < 2 ^ 34) (_ : ¬ Available vm.pmm page) :
      walk after.mem space (directPage page) = walk vm.mem space (directPage page) := by rw [same]
  have enters : Enters (· = owner) vm after := ⟨_, alloc_entered ran⟩
  exact ⟨sound', grows.moves, enters, fun _ _ _ _ _ => by rw [same], direct,
    fun opened => opened.keep sound.ledger enters (fun _ same => same ▸ other) direct⟩

/-- Mapping pages takes tables only, and moves nothing in the direct map but the pages themselves. -/
theorem mapped (sound : Sane initial roots root vm) {space : Nat} {virt phys : Range} {isUser : Bool}
    {pages : Nat → Prop} (ran : vmmMapRange vm (mmapPhysToIo space) virt phys isUser = .ok after)
    (touched : Touched roots vm space pages after)
    (hole : root = space → ∀ virt, Canonical virt → pages (virt / 4096) → 255 ≠ pml4GetIndex virt) :
    Sane initial roots root after ∧ Enters (· = .table) vm after ∧
      ∀ other page, roots other → page < 2 ^ 34 → ¬ pages (directPage page / 4096) →
        walk after.mem other (directPage page) = walk vm.mem other (directPage page) := by
  have enters := vmmMapRange_enters ran
  have slot := touched.slots root 255 sound.isRoot hole
  refine ⟨sound.grow touched.spaces touched.grows.moves enters slot ?_, enters, ?_⟩
  · obtain ⟨tables, entered⟩ := enters
    intro added owners entry member notRoot notTable
    rw [entered.owners] at owners
    obtain rfl := List.append_cancel_right owners
    exact absurd (entered.kinds entry member) notTable
  · intro other page isRoot small apart
    exact touched.misses other _ isRoot (directPage_kernel small).1 fun hit => apart hit.1

/-- Mapping pages of the user half of a space other than the kernel's. -/
theorem mapUser (sound : Sane initial roots root vm) {space : Nat} {virt phys : Range} {isUser : Bool}
    (isSpace : roots space)
    (other : space ≠ root) (half : ∀ index, index < virt.length / 4096 →
      UserHalf (wrap (index * pageSize + alignDown virt.base pageSize)))
    (ran : vmmMapRange vm (mmapPhysToIo space) virt phys isUser = .ok after) :
    Took initial roots root (· = .table) (fun place virtual => place = space ∧ ∃ index < virt.length / 4096,
      virtual / 4096 = wrap (index * pageSize + alignDown virt.base pageSize) / 4096) vm after ∧
        Grows roots vm after := by
  have touched := vmmMapRange_touched sound.spaces isSpace ran (fun index _ => rfl)
    (fun index inside => .inl (half index inside))
    (fun index inside => .inl (half index inside))
  obtain ⟨sound', enters, direct⟩ := sound.mapped ran touched fun same => absurd same.symm other
  have direct (other page : Nat) (isRoot : roots other) (small : page < 2 ^ 34) (_ : ¬ Available vm.pmm page) :
      walk after.mem other (directPage page) = walk vm.mem other (directPage page) := by
    apply direct other page isRoot small
    rintro ⟨index, inside, same⟩
    have half := half index inside
    have kernel := (directPage_kernel small).2
    unfold UserHalf at half kernel
    omega
  refine ⟨⟨sound', touched.grows.moves, enters, fun other virt isRoot half still => ?_, direct,
    fun opened => opened.keep sound.ledger enters (fun _ same => same ▸ nofun) direct⟩, touched.grows⟩
  refine touched.misses other virt isRoot (.inl half) fun hit => still ⟨?_, hit.1⟩
  exact hit.2.resolve_right (not_not.mpr half)

/-- The direct map has the tables for memory that was free at boot. -/
theorem touchable (sound : Sane initial roots root vm) {space : Nat} {range : Range} (isSpace : roots space)
    (top : range.base + range.length ≤ 2 ^ 46) (base : range.base % 4096 = 0) (length : range.length % 4096 = 0)
    (was : ∀ page ∈ range.pages, Available initial page) (virt : Nat) (first : mmapPhysToIo range.base ≤ virt)
    (last : virt < mmapPhysToIo range.base + range.length) : Touchable roots vm space virt := by
  obtain ⟨page, inside, small, same⟩ := directRange_slot top first last base length
  have slot := sound.slots page (was page inside)
  unfold Slotted at slot
  refine .inr (.inl ?_)
  rw [same]
  have kernel := (userHalf_index (directPage_kernel small).1).mpr (directPage_kernel small).2
  rw [← child_present] at slot ⊢
  rwa [sound.spaces.shared space root _ isSpace sound.isRoot kernel]

/-- A block of the heap goes into the direct map of all spaces, open to user mode. -/
theorem mapHeap (sound : Sane initial roots root vm) {space : Nat} {range : Range} {isUser : Bool}
    (isSpace : roots space) (base : range.base % 4096 = 0) (length : range.length % 4096 = 0)
    (was : ∀ page ∈ range.pages, Available initial page)
    (ran : vmmMapRange vm (mmapPhysToIo space) ⟨mmapPhysToIo range.base, range.length⟩ range isUser = .ok after) :
    Sane initial roots root after ∧ Grows roots vm after ∧ Enters (· = .table) vm after ∧
      (∀ other virt, roots other → UserHalf virt → walk after.mem other virt = walk vm.mem other virt) ∧
      (∀ other page, roots other → page < 2 ^ 34 → page ∉ range.pages →
        walk after.mem other (directPage page) = walk vm.mem other (directPage page)) ∧
      ∀ other page, roots other → page ∈ range.pages →
        walk after.mem other (directPage page) = some ⟨page * 4096, true, isUser⟩ := by
  have low {page : Nat} (inside : page ∈ range.pages) : page < 2 ^ 34 :=
    Nat.lt_of_lt_of_le (was page inside).1 sound.ledger.bound
  have top : range.base + range.length ≤ 2 ^ 46 ∨ range.length = 0 := by
    by_cases empty : range.length = 0
    · exact .inr empty
    · have last : range.base / 4096 + range.length / 4096 - 1 < 2 ^ 34 := low (Range.mem_pages.mpr (by omega))
      omega
  rcases top with top | empty
  · have io := directRange_base top
    have updated := vmmMapRange_updated (directRange_proper top base length) base (by omega) sound.spaces isSpace
      (sound.touchable isSpace top base length was) ran
    obtain ⟨sound, enters, direct⟩ := sound.mapped ran updated.toTouched fun _ virt canonical inside => by
      have inside := Range.mem_pages.mp inside
      rw [pml4GetIndex, pmlxGetIndex_eq]
      simp only [io, mmapIoBase, wrap, Canonical] at *
      omega
    refine ⟨sound, updated.grows, enters, fun other virt isRoot half => ?_,
      fun other page isRoot small outside =>
        direct other page isRoot small (mt (directRange_pages top small).mp outside), ?_⟩
    · refine updated.misses other virt isRoot (.inl half) fun hit => ?_
      have inside := Range.mem_pages.mp hit.1
      simp only [io, mmapIoBase, UserHalf] at *
      omega
    intro other page isRoot inside
    have kernel := directPage_kernel (low inside)
    rw [updated.hits other _ isRoot kernel.1 ((directRange_pages top (low inside)).mpr inside) (.inr kernel.2)]
    have here := Range.mem_pages.mp inside
    simp only [mapTarget, directPage_eq (low inside), io, Option.some.injEq, Translation.mk.injEq, and_true]
    simp only [mmapIoBase]
    omega
  · have none (page : Nat) : page ∉ range.pages := by
      rw [Range.mem_pages]
      omega
    have same : after = vm := by
      obtain ⟨⟨⟩, -, rest⟩ := bind_ok ran
      dsimp only at rest
      rw [empty] at rest
      exact (Except.ok.inj rest).symm
    subst same
    exact ⟨sound, .refl _ _, .refl _ _, fun _ _ _ _ => rfl, fun _ _ _ _ _ => rfl, fun _ page _ inside =>
      absurd inside (none page)⟩

theorem write (sound : Sane initial roots root vm) {pages : Nat → Prop}
    (reserved : ∀ page, pages page → Reserved roots vm page) {mem : Bytes}
    (same : ∀ place, ¬ pages (place / 4096) → mem place = vm.mem place) :
    Sane initial roots root { vm with mem } ∧ (∀ table, IsTable roots mem table ↔ IsTable roots vm.mem table) ∧
      (∀ table, IsTable roots vm.mem table → ∀ index, tableEntry mem table index = tableEntry vm.mem table index) ∧
      ∀ space virt, roots space → walk mem space virt = walk vm.mem space virt := by
  obtain ⟨spaces, tables, kept, walks⟩ := sound.spaces.overwritten reserved same
  have isRoot : IsTable roots vm.mem root := ⟨root, [], sound.isRoot, by simp, rfl⟩
  refine ⟨⟨⟨sound.ledger.bound, sound.ledger.accounts⟩, spaces, sound.isRoot, ⟨sound.own.pml4, ?_⟩, ?_, ?_⟩,
    tables, kept, walks⟩
  · rw [kept root isRoot]
    exact sound.own.hole
  · intro entry member notRoot notTable page inside
    have old := sound.held entry member notRoot notTable page inside
    exact ⟨old.held, fun table isTable => old.apart table ((tables table).mp isTable)⟩
  · intro page free
    unfold Slotted
    dsimp only
    rw [kept root isRoot]
    exact sound.slots page free

/-- A byte of the heap lies in no table. -/
theorem heap_reserved (sound : Sane initial roots root vm) {place : Nat} (owned : heapOwned vm place = true) :
    Reserved roots vm (place / 4096) := by
  obtain ⟨entry, member, inside⟩ := List.any_eq_true.mp owned
  simp only [Bool.and_eq_true, beq_iff_eq, decide_eq_true_eq] at inside
  obtain ⟨⟨heap, low⟩, high⟩ := inside
  have aligned := sound.ledger.accounts.aligned entry.2 (List.mem_map_of_mem member)
  exact sound.held entry member (by rw [heap]; nofun) (by rw [heap]; nofun) _ (Range.mem_pages.mpr (by omega))

theorem writeHeap (sound : Sane initial roots root vm) (kind : Owner → Prop) {mem : Bytes}
    (same : ∀ place, heapOwned vm place = false → mem place = vm.mem place) :
    Took initial roots root kind moved vm { vm with mem } := by
  have reserved (page : Nat) (written : ∃ place, place / 4096 = page ∧ heapOwned vm place =
    true) : Reserved roots vm page := by
    obtain ⟨place, rfl, owned⟩ := written
    exact sound.heap_reserved owned
  obtain ⟨sound', tables, kept, walks⟩ := sound.write reserved fun place outside =>
    same place (Bool.eq_false_iff.mpr fun owned => outside ⟨place, rfl, owned⟩)
  refine ⟨sound', ⟨rfl, fun space path table isSpace short hit => ?_, fun table isTable =>
    .inl ((tables table).mp isTable), fun _ free => free, fun place _ _ => same place⟩,
      (Enters.refl kind vm).memory mem,
    fun space virt isSpace _ _ => walks space virt isSpace, fun space page isSpace _ _ => walks space _ isSpace,
    fun opened entry member heap page inside space isSpace => ?_⟩
  · rw [follow_kept kept isSpace (by omega)]
    exact hit
  · rw [walks space _ isSpace]
    exact opened entry member heap page inside space isSpace

end Sane

/-- The space heap blocks are mapped into is one of the machine's. -/
def Homed (roots : Nat → Prop) (kernel : Kernel) : Prop :=
  ∀ space, heapSpace kernel = .ok space → ∃ home, roots home ∧ space = mmapPhysToIo home

theorem Homed.congr {kernel after : Kernel} (homed : Homed roots kernel) (sched : after.sched = kernel.sched)
    (same : after.vm.kernelPml4 = kernel.vm.kernelPml4) : Homed roots after := by
  intro space ran
  apply homed space
  unfold heapSpace at ran ⊢
  rwa [sched, same] at ran

theorem Homed.table {kernel : Kernel} {table : List Process} (valid : Table kernel.sched table)
    (spaces : ∀ process ∈ table, ∃ home, roots home ∧ process.pml = mmapPhysToIo home)
    (own : KernelSpace root kernel.vm) (isRoot : roots root) : Homed roots kernel := by
  intro space chosen
  unfold heapSpace at chosen
  split at chosen
  next =>
    obtain ⟨process, current, rest⟩ := bind_ok chosen
    obtain rfl := Except.ok.inj rest
    exact spaces process (List.mem_of_getElem? (valid.running current))
  next =>
    obtain rfl := Except.ok.inj chosen
    exact ⟨root, isRoot, own.pml4⟩

theorem liballocAlloc_took {kernel after : Kernel} {size pointer : Nat} (sound : Sane initial roots root kernel.vm)
    (homed : Homed roots kernel) (ran : liballocAlloc kernel size = .ok (pointer, after)) :
    Took initial roots root HeapOwner (fun _ _ => False) kernel.vm after.vm ∧ after.sched = kernel.sched := by
  obtain ⟨enters, sched⟩ := liballocAlloc_enters ran
  obtain ⟨space, chosen, ran⟩ := bind_ok ran
  obtain ⟨home, isHome, rfl⟩ := homed space chosen
  obtain ⟨⟨range, vm⟩, allocated, ran⟩ := bind_ok ran
  obtain ⟨⟨⟩, -, ran⟩ := bind_ok ran
  obtain ⟨mapped, mapping, rest⟩ := bind_ok ran
  obtain ⟨rfl, rfl⟩ := Prod.mk.inj (Except.ok.inj rest)
  obtain ⟨given, grows, mem, owners, fresh⟩ := sound.allocated allocated
  have aligned := given.ledger.accounts.aligned range (by rw [owners]; simp)
  obtain ⟨sound', grows', tables, user, direct, block⟩ := given.mapHeap isHome aligned.1 aligned.2
    (fun page inside => sound.initially (fresh page inside).1) mapping
  have kept (other page : Nat) (isRoot : roots other) (small : page < 2 ^ 34) (held : ¬ Available kernel.vm.pmm page) :
      walk mapped.mem other (directPage page) = walk kernel.vm.mem other (directPage page) := by
    rw [direct other page isRoot small fun inside => held (fresh page inside).1, mem]
  refine ⟨⟨sound', (grows.trans grows').moves, enters, fun other virt isRoot half _ =>
    by rw [user other virt isRoot half, mem], kept, fun opened entry member heap page inside other isRoot => ?_⟩, sched⟩
  obtain ⟨added, entered⟩ := tables
  rw [entered.owners, owners] at member
  rcases List.mem_append.mp member with table | member
  · rw [entered.kinds entry table] at heap
    cases heap
  · rcases List.mem_cons.mp member with rfl | old
    · exact block other page isRoot inside
    · have gone := sound.ledger.gone old inside
      have bound := sound.ledger.accounts.bound entry.2 (List.mem_map_of_mem old)
      have place := Range.mem_pages.mp inside
      have most := sound.ledger.bound
      rw [kept other page isRoot (by omega) gone]
      exact opened entry old heap page inside other isRoot

theorem heapAct_took {kernel after : Kernel} {action : HeapAction} (sound : Sane initial roots root kernel.vm)
    (homed : Homed roots kernel) (ran : heapAct kernel action = .ok after) :
    Took initial roots root HeapOwner (fun _ _ => False) kernel.vm after.vm ∧ after.sched = kernel.sched := by
  cases action with
  | alloc size =>
    obtain ⟨⟨pointer, grown⟩, allocated, rest⟩ := bind_ok ran
    obtain rfl := Except.ok.inj rest
    exact liballocAlloc_took sound homed allocated
  | free ptr pages =>
    obtain ⟨⟨⟩, known, freed⟩ := bind_ok ran
    obtain ⟨entry, member, holds⟩ := List.any_eq_true.mp (check_ok known)
    simp only [Bool.and_eq_true, beq_iff_eq] at holds
    obtain rfl := liballocFree_nothing sound.ledger member holds.2 freed
    exact ⟨.refl sound _ _, rfl⟩
  | write place value =>
    obtain ⟨⟨⟩, owned, rest⟩ := bind_ok ran
    obtain rfl := Except.ok.inj rest
    have inside := check_ok owned
    refine ⟨sound.writeHeap _ fun other outside => Function.update_of_ne ?_ _ _, rfl⟩
    rintro rfl
    rw [inside] at outside
    cases outside

theorem HeapCall.run_took {kernel after : Kernel} {call : HeapCall} (sound : Sane initial roots root kernel.vm)
    (homed : Homed roots kernel) (ran : call.run kernel = .ok after) :
    Took initial roots root HeapOwner (fun _ _ => False) kernel.vm after.vm ∧
      after.sched = kernel.sched := by
  have step (state : Kernel) (action : HeapAction) (next : Kernel) (_ : action ∈ call.actions)
      (kept : Took initial roots root HeapOwner (fun _ _ => False) kernel.vm state.vm ∧ state.sched = kernel.sched)
        (turn : heapAct state action = .ok next) :
      Took initial roots root HeapOwner (fun _ _ => False) kernel.vm next.vm ∧ next.sched = kernel.sched := by
    obtain ⟨took, same⟩ := heapAct_took kept.1.sound (homed.congr kept.2 kept.1.moves.kernel) turn
    exact ⟨kept.1.trans sound.ledger took, same.trans kept.2⟩
  exact foldlM_keeps step ⟨.refl sound _ _, rfl⟩ ran

theorem kmalloc_took {kernel after : Kernel} {count pointer : Nat} {call : HeapCall}
    (sound : Sane initial roots root kernel.vm) (homed : Homed roots kernel)
    (ran : kmalloc kernel count call = .ok (pointer, after)) :
    Took initial roots root HeapOwner (fun _ _ => False) kernel.vm after.vm ∧ after.sched = kernel.sched ∧
      ∀ offset, offset < count → heapOwned after.vm (mmapIoToPhys pointer + offset) = true := by
  obtain ⟨middle, called, ran⟩ := bind_ok ran
  obtain ⟨⟨⟩, inside, rest⟩ := bind_ok ran
  obtain ⟨rfl, rfl⟩ := Prod.mk.inj (Except.ok.inj rest)
  obtain ⟨took, same⟩ := HeapCall.run_took sound homed called
  exact ⟨took, same, fun offset below => List.all_eq_true.mp (check_ok inside) offset (List.mem_range.mpr below)⟩

theorem kcalloc_took {kernel after : Kernel} {count pointer : Nat} {call : HeapCall}
    (sound : Sane initial roots root kernel.vm) (homed : Homed roots kernel)
    (ran : kcalloc kernel count call = .ok (pointer, after)) :
    Took initial roots root HeapOwner (fun _ _ => False) kernel.vm after.vm ∧ after.sched = kernel.sched := by
  obtain ⟨⟨ptr, middle⟩, called, rest⟩ := bind_ok ran
  obtain ⟨rfl, rfl⟩ := Prod.mk.inj (Except.ok.inj rest)
  obtain ⟨took, same, owned⟩ := kmalloc_took sound homed called
  refine ⟨took.trans sound.ledger (took.sound.writeHeap _ fun place outside => ?_), same⟩
  unfold memset
  apply Bytes.fill_apart
  by_contra inside
  have here := owned (place - mmapIoToPhys ptr) (by omega)
  rw [show mmapIoToPhys ptr + (place - mmapIoToPhys ptr) = place by omega, outside] at here
  cases here

theorem kfree_took {kernel after : Kernel} {ptr : Nat} {call : HeapCall} (sound : Sane initial roots root kernel.vm)
    (homed : Homed roots kernel) (ran : kfree kernel ptr call = .ok after) :
    Took initial roots root HeapOwner (fun _ _ => False) kernel.vm after.vm ∧ after.sched = kernel.sched := by
  unfold kfree at ran
  split at ran
  next =>
    obtain rfl := Except.ok.inj ran
    exact ⟨.refl sound _ _, rfl⟩
  next =>
    obtain ⟨⟨⟩, -, called⟩ := bind_ok ran
    exact HeapCall.run_took sound homed called

theorem growVec_took {T : Type} {kernel after : Kernel} {vec : Vec T} {memsz : Nat} {call : HeapCall}
    {answer : Option Nat} (sound : Sane initial roots root kernel.vm) (homed : Homed roots kernel)
    (ran : growVec kernel vec memsz call = .ok (answer, after)) :
    Took initial roots root HeapOwner (fun _ _ => False) kernel.vm after.vm ∧ after.sched = kernel.sched := by
  unfold growVec at ran
  split at ran
  next =>
    obtain ⟨⟨ptr, larger⟩, called, rest⟩ := bind_ok ran
    obtain ⟨-, rfl⟩ := Prod.mk.inj (Except.ok.inj rest)
    obtain ⟨took, same, -⟩ := kmalloc_took sound homed called
    exact ⟨took, same⟩
  next =>
    obtain ⟨-, rfl⟩ := Prod.mk.inj (Except.ok.inj ran)
    exact ⟨.refl sound _ _, rfl⟩

namespace Sane

variable {fewer : Nat → Prop}

theorem drop (sound : Sane initial roots root vm) (less : ∀ other, fewer other → roots other) (kept : fewer root) :
    Sane initial fewer root vm := by
  have tables (table : Nat) (isTable : IsTable fewer vm.mem table) : IsTable roots vm.mem table := by
    obtain ⟨other, path, isRoot, short, hit⟩ := isTable
    exact ⟨other, path, less other isRoot, short, hit⟩
  have spaces := sound.spaces
  refine ⟨sound.ledger, ⟨⟨spaces.sized, ⟨fun isRoot isOther => ?_⟩, fun other isRoot =>
    spaces.aligned other (less other isRoot), fun other path table index isRoot =>
      spaces.open' other path table index (less other isRoot), fun table isTable => ?_⟩,
    fun other another index isRoot isOther => spaces.shared other another index (less other isRoot)
      (less another isOther)⟩, kept,
    sound.own, fun entry member notRoot notTable page inside => ?_, sound.slots⟩
  · exact spaces.separated.apart (less _ isRoot) (less _ isOther)
  · exact spaces.reserved table (tables table isTable)
  · have reserved := sound.held entry member notRoot notTable page inside
    exact ⟨reserved.held, fun table isTable => reserved.apart table (tables table isTable)⟩

/-- The PML4 of a space that was dropped is no table of the others. -/
theorem orphan (sound : Sane initial roots root vm) (less : ∀ other, fewer other → roots other) {gone : Nat}
    (was : roots gone) (dropped : ¬ fewer gone) {table : Nat} (isTable : IsTable fewer vm.mem table) :
    gone / 4096 ≠ table / 4096 := by
  obtain ⟨other, path, isRoot, short, hit⟩ := isTable
  have aligned := (sound.spaces.aligned gone was).1
  have aligned' := (sound.spaces.table_aligned ⟨other, path, less other isRoot, short, hit⟩).1
  intro clash
  obtain rfl : gone = table := by omega
  have first : follow vm.mem gone [] = some gone := rfl
  obtain ⟨-, same | shared⟩ := sound.spaces.separated.apart was (less other isRoot) (by simp) short first hit
  · exact dropped (same ▸ isRoot)
  · exact shared

/-- Giving frames back that hold no table. -/
theorem release (sound : Sane initial roots root vm) {owner : Owner} {range : Range}
    (member : (owner, range) ∈ vm.owners)
    (apart : ∀ page ∈ range.pages, ∀ table, IsTable roots vm.mem table → page ≠ table / 4096)
    (ran : vm.free owner range = .ok after) :
    Sane initial roots root after ∧ after.owners = vm.owners.erase (owner, range) ∧ after.mem = vm.mem := by
  obtain ⟨ledger, owners, mem⟩ := sound.ledger.release member ran
  have kernel : after.kernelPml4 = vm.kernelPml4 := by
    obtain ⟨pmm, -, rest⟩ := bind_ok ran
    obtain rfl := Except.ok.inj rest
    rfl
  have free {page : Nat} (free : Available after.pmm page) : Available vm.pmm page ∨ page ∈ range.pages := by
    by_cases inside : page ∈ range.pages
    · exact .inr inside
    · have size : after.pmm.bitmapSize = vm.pmm.bitmapSize := ledger.accounts.size.trans sound.ledger.accounts.size.symm
      refine .inl ⟨size ▸ free.1, ?_⟩
      have clear : after.pmm.bitmap.bit page = false := free.2
      have still := mt (ledger.accounts.bits page).mpr (by simp [clear])
      by_contra taken
      have set : vm.pmm.bitmap.bit page = true := by simpa [Pmm.Free] using taken
      rcases (sound.ledger.accounts.bits page).mp set with start | ⟨other, live, here⟩
      · exact still (.inl start)
      · obtain ⟨entry, among, rfl⟩ := List.mem_map.mp live
        have different : entry ≠ (owner, range) := by
          rintro rfl
          exact inside here
        exact still (.inr ⟨entry.2, List.mem_map_of_mem (owners ▸ (List.mem_erase_of_ne different).mpr among), here⟩)
  have spaces := sound.spaces
  have isTable (table : Nat) : IsTable roots after.mem table ↔ IsTable roots vm.mem table := by rw [mem]
  refine ⟨⟨ledger, ⟨⟨ledger.pmm_sized, by rw [mem]; exact spaces.separated, spaces.aligned,
    by rw [mem]; exact spaces.open', ?_⟩, by rw [mem]; exact spaces.shared⟩, sound.isRoot,
      ⟨kernel.trans sound.own.pml4, by rw [mem]; exact sound.own.hole⟩, ?_,
    fun page start => by rw [mem]; exact sound.slots page start⟩, owners, mem⟩
  · intro table reached available
    have reached := (isTable table).mp reached
    rcases free available with old | given
    · exact spaces.reserved table reached old
    · exact apart _ given table reached rfl
  · intro entry among notRoot notTable page inside
    have old := sound.held entry (List.mem_of_mem_erase (owners ▸ among)) notRoot notTable page inside
    exact ⟨ledger.gone among inside, fun table reached => old.apart table ((isTable table).mp reached)⟩

end Sane

/-- Writing to frames that were free when the operation began is part of it. -/
theorem Took.overwrite (took : Took initial roots root kind moved vm middle) (grows : Grows roots vm middle)
    {pages : Nat → Prop} (reserved : ∀ page, pages page → Reserved roots middle page)
    (was : ∀ page, pages page → Available vm.pmm page) {mem : Bytes}
    (same : ∀ place, ¬ pages (place / 4096) → mem place = middle.mem place) :
    Took initial roots root kind moved vm { middle with mem } ∧ Grows roots vm { middle with mem } ∧
      (∀ space virt, roots space → walk mem space virt = walk middle.mem space virt) ∧
      ∀ page, Reserved roots middle page → Reserved roots { middle with mem } page := by
  obtain ⟨sound, tables, -, walks⟩ := took.sound.write reserved same
  have grown := grows.overwritten took.sound.spaces reserved was same
  refine ⟨⟨sound, grown.moves, took.enters.memory mem, fun space virt isSpace half still => ?_,
    fun space page isSpace small held => ?_, fun opened => ?_⟩, grown, walks,
    fun page old => ⟨old.held, fun table isTable => old.apart table ((tables table).mp isTable)⟩⟩
  · exact (walks space virt isSpace).trans (took.user space virt isSpace half still)
  · exact (walks space _ isSpace).trans (took.direct space page isSpace small held)
  · intro entry member heap page inside space isSpace
    dsimp only
    rw [walks space _ isSpace]
    exact took.opened opened entry member heap page inside space isSpace

/-- The kernel halves of two spaces translate alike. -/
theorem Spaces.walk_kernel (spaces : Spaces roots vm) {space other virt : Nat} (isSpace : roots space)
    (isOther : roots other) (canonical : Canonical virt) (kernel : ¬ UserHalf virt) :
    walk vm.mem space virt = walk vm.mem other virt := by
  rw [spaces.toForest.walk_eq isSpace, spaces.toForest.walk_eq isOther]
  simp only [follow, pathOf, RadixForest.follow]
  rw [spaces.shared space other _ isSpace isOther ((userHalf_index canonical).mpr kernel)]

theorem Created.sound {fresh pml : Nat} (sound : Sane initial roots root vm)
    (created : Created roots root vm fresh after) (ran : vmmSpaceCreate vm = .ok (pml, after)) :
    Sane initial (fun other => roots other ∨ other = fresh) root after ∧
      (Opened roots vm → Opened (fun other => roots other ∨ other = fresh) after) := by
  obtain ⟨range, -, -, entered, -⟩ := vmmSpaceCreate_entered ran
  have moves := created.grows.moves
  refine ⟨⟨entered.ledger sound.ledger, created.spaces, .inl sound.isRoot, created.kernel, ?_, ?_⟩, ?_⟩
  · intro entry member notRoot notTable page inside
    rw [entered.owners] at member
    rcases List.mem_cons.mp member with rfl | old
    · exact absurd rfl notRoot
    · exact created.reserved (sound.held entry old notRoot notTable page inside)
  · exact fun page free => moves.slotted sound.isRoot (sound.slots page free)
  · intro opened entry member heap page inside other isOther
    rw [entered.owners] at member
    rcases List.mem_cons.mp member with rfl | old
    · cases heap
    · have bound := sound.ledger.accounts.bound entry.2 (List.mem_map_of_mem old)
      have place := Range.mem_pages.mp inside
      have most := sound.ledger.bound
      obtain ⟨canonical, kernel⟩ := directPage_kernel (show page < 2 ^ 34 by omega)
      rw [created.spaces.walk_kernel isOther (.inl sound.isRoot) canonical kernel, created.walks root _ sound.isRoot]
      exact opened entry old heap page inside root sound.isRoot

/-- The machine `vmm_init` leaves is sound, and has no heap yet. -/
theorem vmmInit_sane {mem : Bytes} {handover edited : Handover} {pmm : Pmm} (fits : handover.Fits)
    (placed : pmmInit handover = .ok (pmm, edited)) (ran : vmmInit mem pmm edited = .ok vm) :
    ∃ root, Sane pmm (· = root) root vm ∧ Opened (· = root) vm := by
  have ledger := vmmInit_ledger (pmmInit_bound fits placed) ran
  obtain ⟨addressable, listed⟩ := pmmInit_available fits placed
  obtain ⟨root, booted⟩ := vmmInit_booted ledger.sized addressable ran
  obtain ⟨added, entered⟩ := vmmInit_enters ran
  have tables (entry : Owner × Range) (member : entry ∈ vm.owners) : entry.1 = .root ∨ entry.1 = .table := by
    rw [entered.owners, List.append_nil] at member
    exact entered.kinds entry member
  refine ⟨root, ⟨ledger, booted.spaces, rfl, booted.own, ?_, ?_⟩, ?_⟩
  · intro entry member notRoot notTable
    exact absurd (tables entry member) fun either => either.elim notRoot notTable
  · intro page free
    obtain ⟨mmap, member, inside⟩ := listed page free
    exact booted.slots mmap member page inside
  · intro entry member heap
    rcases tables entry member with same | same <;> cases heap.symm.trans same

/-- The machine that just came up: sound, with its heap open in the kernel's space,
and nothing but the kernel's own process. -/
structure Started (initial : Pmm) (root : Nat) (system : System) : Prop where
  sound : Sane initial (· = root) root system.kernel.vm
  opened : Opened (· = root) system.kernel.vm
  table : Table system.kernel.sched [{ Process.zero with pid := 0, state := .running, pml := mmapPhysToIo root }]
  heap : ∃ place, heapOwned system.kernel.vm place = true
  loaded : system.loaded = []
  torn : system.torn = []

theorem Started.homed {system : System} (started : Started initial root system) : Homed (· = root) system.kernel := by
  refine Homed.table started.table (fun process member => ?_) started.sound.own rfl
  obtain rfl := List.mem_singleton.mp member
  exact ⟨root, rfl, rfl⟩

/-- Boot: `vmm_init`, and from there a heap. -/
theorem boot_grown {mem : Bytes} {handover : Handover} {ist0 ist1 rsp0 block table : HeapCall} {system : System}
    (fits : handover.Fits) (ran : boot mem handover ist0 ist1 rsp0 block table = .ok system) :
    ∃ pmm edited vm root answer, pmmInit handover = .ok (pmm, edited) ∧ vmmInit mem pmm edited = .ok vm ∧ Sane pmm
      (· = root) root vm ∧
      Opened (· = root) vm ∧ Took pmm (· = root) root HeapOwner (fun _ _ => False) vm system.kernel.vm ∧
      schedInit .zero root answer = .ok system.kernel.sched ∧ (∃ place, heapOwned system.kernel.vm place = true) ∧
      system.loaded = [] ∧ system.torn = [] := by
  obtain ⟨⟨pmm, edited⟩, placed, ran⟩ := bind_ok ran
  obtain ⟨vm, mapped, ran⟩ := bind_ok ran
  obtain ⟨⟨tss, stacked⟩, interrupts, ran⟩ := bind_ok ran
  obtain ⟨kernel, scheduler, rest⟩ := bind_ok ran
  obtain rfl := Except.ok.inj rest
  obtain ⟨root, sound, opened⟩ := vmmInit_sane fits placed mapped
  have homed : Homed (· = root) (Kernel.mk .zero vm) := by
    intro space chosen
    obtain rfl := Except.ok.inj chosen
    exact ⟨root, rfl, sound.own.pml4⟩
  obtain ⟨⟨_, kernel1⟩, first, interrupts⟩ := bind_ok interrupts
  obtain ⟨⟨_, kernel2⟩, second, interrupts⟩ := bind_ok interrupts
  obtain ⟨⟨_, kernel3⟩, third, rest⟩ := bind_ok interrupts
  obtain ⟨-, rfl⟩ := Prod.mk.inj (Except.ok.inj rest)
  obtain ⟨⟨_, zeroed⟩, process, scheduler⟩ := bind_ok scheduler
  obtain ⟨⟨answer, grown⟩, array, scheduler⟩ := bind_ok scheduler
  obtain ⟨sched, started, rest⟩ := bind_ok scheduler
  obtain rfl := Except.ok.inj rest
  obtain ⟨took1, same1, -⟩ := kmalloc_took (show Sane pmm _ root (Kernel.mk .zero vm).vm from sound) homed first
  have homed1 := homed.congr same1 took1.moves.kernel
  obtain ⟨took2, same2, -⟩ := kmalloc_took took1.sound homed1 second
  have homed2 := homed1.congr same2 took2.moves.kernel
  obtain ⟨took3, same3, -⟩ := kmalloc_took took2.sound homed2 third
  have homed3 := homed2.congr same3 took3.moves.kernel
  obtain ⟨took4, same4⟩ := kcalloc_took took3.sound homed3 process
  have homed4 := homed3.congr same4 took4.moves.kernel
  obtain ⟨took5, same5, owned⟩ := kmalloc_took took4.sound homed4 array
  rw [same5, same4, same3, same2, same1] at started
  have pml4 : vmmSwitchSpace grown.vm.kernelPml4 = root := by
    rw [took5.sound.own.pml4]
    exact phys_io _ (took5.sound.spaces.aligned root rfl).2
  rw [pml4] at started
  have took := ((((took1.trans sound.ledger took2).trans sound.ledger took3).trans sound.ledger took4).trans sound.ledger took5)
  exact ⟨pmm, edited, vm, root, _, placed, mapped, sound, opened, took, started, ⟨_, owned 0 (by decide)⟩, rfl, rfl⟩

theorem boot_took {mem : Bytes} {handover : Handover} {ist0 ist1 rsp0 block table : HeapCall} {system : System}
    (fits : handover.Fits) (ran : boot mem handover ist0 ist1 rsp0 block table = .ok system) :
    ∃ initial root, Started initial root system := by
  obtain ⟨pmm, edited, vm, root, answer, -, -, -, opened, took, started, owned, loaded, torn⟩ := boot_grown fits ran
  exact ⟨pmm, root, took.sound, took.opened opened, Table.init started, owned, loaded, torn⟩

end Navy.Paging
