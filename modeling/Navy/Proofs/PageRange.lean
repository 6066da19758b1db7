import Navy.Proofs.PageMapping
import Navy.Tlb

/-! Mapping and unmapping whole ranges in a family of address spaces that share
their kernel half. -/

namespace Navy.Paging

variable {roots : Nat → Prop}

/-- Address spaces whose kernel halves lead to the same tables. -/
structure Spaces (roots : Nat → Prop) (vm : Vm) : Prop extends Forest roots vm where
  shared : ∀ root other index, roots root → roots other → 256 ≤ index →
    child (tableEntry vm.mem root index) = child (tableEntry vm.mem other index)

/-- A space alone has nobody to disagree with. -/
theorem Spaces.alone {root : Nat} {vm : Vm} (forest : Forest (· = root) vm) : Spaces (· = root) vm :=
  ⟨forest, by rintro _ _ _ rfl rfl _; rfl⟩

/-- Mapping here cannot make two kernel halves differ: the address is private,
or its top-level entry exists already, or there is only one space. -/
def Touchable (roots : Nat → Prop) (vm : Vm) (root virt : Nat) : Prop :=
  UserHalf virt ∨ (tableEntry vm.mem root (pml4GetIndex virt)).present = true ∨ ∀ other, roots other → other = root

theorem child_present {entry : PmlEntry} : (child entry).isSome ↔ entry.present = true := by
  unfold child
  split <;> simp_all

theorem follow_single (mem : Bytes) (root index : Nat) :
    follow mem root [index] = child (tableEntry mem root index) := by
  simp [follow, RadixForest.follow]

theorem Grows.child {before after : Vm} (grows : Grows roots before after) {root index table : Nat}
    (isRoot : roots root) (linked : child (tableEntry before.mem root index) = some table) :
    child (tableEntry after.mem root index) = some table := by
  rw [← follow_single] at linked ⊢
  exact grows.paths root [index] table isRoot (by simp) linked

theorem Touchable.grow {before after : Vm} (grows : Grows roots before after) {root virt : Nat} (isRoot : roots root)
    (touchable : Touchable roots before root virt) : Touchable roots after root virt := by
  rcases touchable with private' | present | alone
  · exact .inl private'
  · obtain ⟨table, linked⟩ := Option.isSome_iff_exists.mp (child_present.mpr present)
    exact .inr (.inl (child_present.mp (Option.isSome_iff_exists.mpr ⟨table, grows.child isRoot linked⟩)))
  · exact .inr (.inr alone)

/-- What an operation through `root` on `pages` leaves behind in any case: the
pages change in every space when they lie in the kernel half, and nothing else does. -/
structure Touched (roots : Nat → Prop) (vm : Vm) (root : Nat) (pages : Nat → Prop) (after : Vm) : Prop where
  spaces : Spaces roots after
  grows : Grows roots vm after
  misses : ∀ other virt, roots other → Canonical virt → ¬ (pages (virt / 4096) ∧ (other = root ∨ ¬ UserHalf virt)) →
    walk after.mem other virt = walk vm.mem other virt
  slots : ∀ other index, roots other →
    (other = root → ∀ virt, Canonical virt → pages (virt / 4096) → index ≠ pml4GetIndex virt) →
    tableEntry after.mem other index = tableEntry vm.mem other index

/-- The pages now translate to `target`. -/
structure Updated (roots : Nat → Prop) (vm : Vm) (root : Nat) (pages : Nat → Prop) (target : Nat → Option Translation)
    (after : Vm) : Prop extends Touched roots vm root pages after where
  hits : ∀ other virt, roots other → Canonical virt → pages (virt / 4096) → (other = root ∨ ¬ UserHalf virt) →
    walk after.mem other virt = target (virt / 4096)

theorem Touched.none {vm : Vm} (spaces : Spaces roots vm) (root : Nat) (pages : Nat → Prop) :
    Touched roots vm root pages vm :=
  ⟨spaces, .refl _ _, fun _ _ _ _ _ => rfl, fun _ _ _ _ => rfl⟩

theorem Touched.trans {vm middle after : Vm} {root : Nat} {pages more both : Nat → Prop}
    (first : Touched roots vm root pages middle) (last : Touched roots middle root more after)
    (union : ∀ page, both page ↔ pages page ∨ more page) : Touched roots vm root both after := by
  refine ⟨last.spaces, first.grows.trans last.grows, ?_, ?_⟩
  · intro other virt isOther canonical miss
    rw [union] at miss
    rw [last.misses other virt isOther canonical fun hit => miss ⟨.inr hit.1, hit.2⟩,
      first.misses other virt isOther canonical fun hit => miss ⟨.inl hit.1, hit.2⟩]
  · intro other index isOther apart
    simp only [union] at apart
    rw [last.slots other index isOther fun same virt canonical hit => apart same virt canonical (.inr hit),
      first.slots other index isOther fun same virt canonical hit => apart same virt canonical (.inl hit)]

theorem Updated.none {vm : Vm} (spaces : Spaces roots vm) (root : Nat) {pages : Nat → Prop}
    {target : Nat → Option Translation} (empty : ∀ page, ¬ pages page) : Updated roots vm root pages target vm :=
  ⟨.none spaces root pages, fun _ _ _ _ hit => absurd hit (empty _)⟩

theorem Updated.trans {vm middle after : Vm} {root : Nat} {pages more both : Nat → Prop}
    {target : Nat → Option Translation} (first : Updated roots vm root pages target middle)
    (last : Updated roots middle root more target after) (union : ∀ page, both page ↔ pages page ∨ more page) :
    Updated roots vm root both target after := by
  refine ⟨first.toTouched.trans last.toTouched union, ?_⟩
  intro other virt isOther canonical hit sees
  by_cases again : more (virt / 4096)
  · exact last.hits other virt isOther canonical again sees
  · rw [last.misses other virt isOther canonical fun both => again both.1]
    exact first.hits other virt isOther canonical (((union _).mp hit).resolve_right again) sees

theorem Updated.retarget {vm after : Vm} {root : Nat} {pages : Nat → Prop} {target goal : Nat → Option Translation}
    (updated : Updated roots vm root pages target after) (same : ∀ page, pages page → target page = goal page) :
    Updated roots vm root pages goal after := by
  refine ⟨updated.toTouched, ?_⟩
  intro other virt isOther canonical hit sees
  rw [updated.hits other virt isOther canonical hit sees, same _ hit]

/-- Two spaces reach the same leaf table exactly in their common half. -/
private theorem Spaces.meets {vm : Vm} (spaces : Spaces roots vm) {root other virt table : Nat} (isRoot : roots root)
    (isOther : roots other) (canonical : Canonical virt) (reached : follow vm.mem root (pathOf virt) = some table) :
    follow vm.mem other (pathOf virt) = follow vm.mem root (pathOf virt) ↔ other = root ∨ ¬ UserHalf virt := by
  constructor
  · intro same
    rw [reached] at same
    rcases (spaces.separated.apart isOther isRoot (by simp [pathOf]) (by simp [pathOf]) same reached).2 with equal |
      kernel
    · exact .inl equal
    · exact .inr ((userHalf_index canonical).mp kernel)
  · rintro (rfl | kernel)
    · rfl
    · simp only [follow, pathOf, RadixForest.follow]
      rw [spaces.shared other root _ isOther isRoot ((userHalf_index canonical).mpr kernel)]

/-- One leaf rewritten, seen from all spaces. -/
theorem Mapped.updated {vm after : Vm} {root virt : Nat} {target : Option Translation} (spaces : Spaces roots vm)
    (isRoot : roots root) (canonical : Canonical virt) (touchable : Touchable roots vm root virt)
    (mapped : Mapped roots vm root virt target after) :
    Updated roots vm root (· = virt / 4096) (fun _ => target) after := by
  have shared : Spaces roots after := by
    refine ⟨mapped.forest, ?_⟩
    rcases touchable with private' | present | alone
    · have same (other index : Nat) (isOther : roots other) (kernel : 256 ≤ index) :=
        mapped.slots other index isOther fun clash => by
          have low := mt (userHalf_index canonical).mp (not_not.mpr private')
          exact absurd ((Prod.mk.inj clash).2 ▸ kernel) low
      intro first second index isFirst isSecond kernel
      rw [same first index isFirst kernel, same second index isSecond kernel]
      exact spaces.shared first second index isFirst isSecond kernel
    · have same (other index : Nat) (isOther : roots other) :=
        mapped.slots other index isOther fun clash => by
          rw [(Prod.mk.inj clash).1, (Prod.mk.inj clash).2]
          exact present
      intro first second index isFirst isSecond kernel
      rw [same first index isFirst, same second index isSecond]
      exact spaces.shared first second index isFirst isSecond kernel
    · intro first second index isFirst isSecond _
      rw [alone first isFirst, alone second isSecond]
  obtain ⟨table, reached⟩ := mapped.reached
  have meets {other : Nat} (isOther : roots other) := shared.meets isRoot isOther canonical reached
  have half {place : Nat} (canonical' : Canonical place) (same : SameSlot place virt) :
      UserHalf place ↔ UserHalf virt := by
    rw [← not_iff_not, ← userHalf_index canonical', ← userHalf_index canonical]
    rw [show pml4GetIndex place = pml4GetIndex virt from (List.cons.inj same.1).1]
  refine ⟨⟨shared, mapped.grows, ?_, ?_⟩, ?_⟩
  · intro other place isOther canonical' miss
    rw [mapped.walks other place isOther, if_neg]
    rintro ⟨same, seen⟩
    refine miss ⟨(SameSlot.page canonical' canonical).mp same, ?_⟩
    rw [half canonical' same]
    exact (meets isOther).mp seen
  · intro other index isOther apart
    refine mapped.slots other index isOther fun clash => ?_
    exact absurd (Prod.mk.inj clash).2 (apart (Prod.mk.inj clash).1 virt canonical rfl)
  · intro other place isOther canonical' hit sees
    have same := (SameSlot.page canonical' canonical).mpr hit
    rw [half canonical' same] at sees
    rw [mapped.walks other place isOther, if_pos ⟨same, (meets isOther).mpr sees⟩]

/-- A page-aligned range of canonical addresses that does not wrap. -/
structure Proper (range : Range) : Prop where
  base : range.base % 4096 = 0
  length : range.length % 4096 = 0
  bound : range.base + range.length ≤ 2 ^ 64
  canonical : ∀ virt, range.base ≤ virt → virt < range.base + range.length → Canonical virt

private theorem Proper.page {range : Range} (proper : Proper range) {index : Nat}
    (inside : index < range.length / 4096) :
    wrap (index * pageSize + alignDown range.base pageSize) = range.base + index * 4096 ∧
      Canonical (range.base + index * 4096) := by
  have base := proper.base
  have bound := proper.bound
  constructor
  · rw [alignDown_page]
    simp only [wrap, pageSize]
    omega
  · exact proper.canonical _ (by omega) (by omega)

/-- The loop both range operations share. -/
private theorem range_updated {step : Vm → Nat → Checked Vm} {target : Nat → Option Translation} {root : Nat}
    {range : Range} (proper : Proper range)
    (page : ∀ vm index after, index < range.length / 4096 → Spaces roots vm →
      Touchable roots vm root (range.base + index * 4096) → step vm index = .ok after →
      Updated roots vm root (· = range.base / 4096 + index) target after)
    {vm after : Vm} (spaces : Spaces roots vm) (isRoot : roots root)
    (touchable : ∀ virt, range.base ≤ virt → virt < range.base + range.length → Touchable roots vm root virt)
    (ran : (List.range (range.length / 4096)).foldlM step vm = .ok after) :
    Updated roots vm root (· ∈ range.pages) target after := by
  have base := proper.base
  -- after `turn` rounds the first `turn` pages are done
  have done := Outcome.foldlM_range_keeps (fun turn => Updated roots vm root
    (fun page => range.base / 4096 ≤ page ∧ page < range.base / 4096 + turn) target) ?_ (.none spaces root ?_) ran
  · exact done.trans (.none done.spaces root fun _ => id) fun page => by simp [Range.mem_pages]
  · intro turn middle after inside done last
    have here := (touchable (range.base + turn * 4096) (by omega) (by omega)).grow done.grows isRoot
    exact done.trans (page middle turn after inside done.spaces here last) fun page => by omega
  · exact fun page => by omega

/-- Where the pages of `virt` go when it is mapped onto `phys`. -/
def mapTarget (virt phys : Range) (isUser : Bool) (page : Nat) : Option Translation :=
  some ⟨phys.base + (page * 4096 - virt.base), true, isUser⟩

theorem mapTurn_updated {vm after : Vm} {root index : Nat} {virt phys : Range} {isUser : Bool} (proper : Proper virt)
    (aligned : phys.base % 4096 = 0) (small : phys.base + phys.length ≤ 2 ^ 64) (length : phys.length = virt.length)
    (inside : index < virt.length / 4096) (spaces : Spaces roots vm) (isRoot : roots root)
    (touchable : Touchable roots vm root (virt.base + index * 4096))
    (ran : mapTurn (mmapPhysToIo root) virt phys isUser vm index = .ok after) :
    Updated roots vm root (· = virt.base / 4096 + index) (mapTarget virt phys isUser) after := by
  have base := proper.base
  obtain ⟨address, canonical⟩ := proper.page inside
  have frame : wrap (index * pageSize + alignDown phys.base pageSize) = phys.base + index * 4096 := by
    rw [alignDown_page]
    simp only [wrap, pageSize]
    omega
  unfold mapTurn at ran
  rw [address, frame] at ran
  have mapped := vmmMapPage_ok spaces.toForest isRoot ran
  have same : wrap (phys.base + index * 4096) / 4096 * 4096 = phys.base + index * 4096 := by
    rw [wrap_of_lt (by omega)]
    omega
  rw [same] at mapped
  have updated := mapped.updated spaces isRoot canonical touchable
  rw [show (virt.base + index * 4096) / 4096 = virt.base / 4096 + index by omega] at updated
  refine updated.retarget ?_
  rintro page rfl
  simp only [mapTarget, Option.some.injEq, Translation.mk.injEq, and_true]
  omega

theorem vmmMapRange_updated {vm after : Vm} {root : Nat} {virt phys : Range} {isUser : Bool} (proper : Proper virt)
    (aligned : phys.base % 4096 = 0) (small : phys.base + phys.length ≤ 2 ^ 64) (spaces : Spaces roots vm)
    (isRoot : roots root)
    (touchable : ∀ place, virt.base ≤ place → place < virt.base + virt.length → Touchable roots vm root place)
    (ran : vmmMapRange vm (mmapPhysToIo root) virt phys isUser = .ok after) :
    Updated roots vm root (· ∈ virt.pages) (mapTarget virt phys isUser) after := by
  obtain ⟨_, equal, ran⟩ := Outcome.bind_ok ran
  have length := check_ok equal
  refine range_updated proper ?_ spaces isRoot touchable ran
  intro vm index after inside spaces touchable ran
  exact mapTurn_updated proper aligned small length inside spaces isRoot touchable ran

/-- The weaker account of a mapping whose addresses need not follow each other. -/
theorem vmmMapRange_touched {vm after : Vm} {root : Nat} {virt phys : Range} {isUser : Bool} (spaces : Spaces roots vm)
    (isRoot : roots root) (ran : vmmMapRange vm (mmapPhysToIo root) virt phys isUser = .ok after) {place : Nat → Nat}
    (address : ∀ index, index < virt.length / 4096 →
      wrap (index * pageSize + alignDown virt.base pageSize) = place index)
    (canonical : ∀ index, index < virt.length / 4096 → Canonical (place index))
    (touchable : ∀ index, index < virt.length / 4096 → Touchable roots vm root (place index)) :
    Touched roots vm root (fun page => ∃ index < virt.length / 4096, page = place index / 4096) after := by
  obtain ⟨_, _, ran⟩ := Outcome.bind_ok ran
  have done := Outcome.foldlM_range_keeps (fun turn => Touched roots vm root
    (fun page => ∃ index < turn, page = place index / 4096)) ?_ (.none spaces root _) ran
  · exact done
  · intro turn middle after inside done last
    rw [address turn inside] at last
    have here := (touchable turn inside).grow done.grows isRoot
    have updated := (vmmMapPage_ok done.spaces.toForest isRoot last).updated done.spaces isRoot
      (canonical turn inside) here
    refine done.trans updated.toTouched fun page => ?_
    constructor
    · rintro ⟨index, before, same⟩
      rcases Nat.lt_succ_iff_lt_or_eq.mp before with earlier | rfl
      · exact .inl ⟨index, earlier, same⟩
      · exact .inr same
    · rintro (⟨index, before, same⟩ | same)
      · exact ⟨index, by omega, same⟩
      · exact ⟨turn, Nat.lt_succ_self turn, same⟩

theorem unmapTurn_updated {vm after : Vm} {root index : Nat} {range : Range} (proper : Proper range)
    (inside : index < range.length / 4096) (spaces : Spaces roots vm) (isRoot : roots root)
    (touchable : Touchable roots vm root (range.base + index * 4096))
    (ran : unmapTurn (mmapPhysToIo root) range vm index = .ok after) :
    Updated roots vm root (· = range.base / 4096 + index) (fun _ => none) after := by
  have base := proper.base
  obtain ⟨address, canonical⟩ := proper.page inside
  unfold unmapTurn at ran
  rw [address] at ran
  have updated := (vmmUnmapPage_ok spaces.toForest isRoot ran).updated spaces isRoot canonical touchable
  rwa [show (range.base + index * 4096) / 4096 = range.base / 4096 + index by omega] at updated

theorem vmmUnmap_updated {vm after : Vm} {root : Nat} {range : Range} (proper : Proper range) (spaces : Spaces roots vm)
    (isRoot : roots root)
    (touchable : ∀ place, range.base ≤ place → place < range.base + range.length → Touchable roots vm root place)
    (ran : vmmUnmap vm (mmapPhysToIo root) range = .ok after) :
    Updated roots vm root (· ∈ range.pages) (fun _ => none) after := by
  refine range_updated proper ?_ spaces isRoot touchable ran
  intro vm index after inside spaces touchable ran
  exact unmapTurn_updated proper inside spaces isRoot touchable ran

theorem vmmUnmap_returns {vm : Vm} {root : Nat} {range : Range} (proper : Proper range) (spaces : Spaces roots vm)
    (isRoot : roots root)
    (touchable : ∀ place, range.base ≤ place → place < range.base + range.length → Touchable roots vm root place)
    (tables : ∀ virt, range.base ≤ virt → virt < range.base + range.length →
      (follow vm.mem root (pathOf virt)).isSome) :
    ∃ after, vmmUnmap vm (mmapPhysToIo root) range = .ok after := by
  have length := proper.length
  refine (Outcome.foldlM_range_returns (fun _ middle => Spaces roots middle ∧ Grows roots vm middle) ?_
    ⟨spaces, .refl _ _⟩).imp fun _ => And.left
  rintro turn middle inside ⟨spaces, grows⟩
  obtain ⟨address, canonical⟩ := proper.page inside
  have low : range.base ≤ range.base + turn * 4096 := Nat.le_add_right _ _
  have high : range.base + turn * 4096 < range.base + range.length := by
    simp only [pageSize] at inside
    omega
  obtain ⟨table, reached⟩ := Option.isSome_iff_exists.mp (tables _ low high)
  have still := grows.paths root _ table isRoot (by simp [pathOf]) reached
  obtain ⟨after, ran⟩ := vmmUnmapPage_returns spaces.toForest isRoot (Option.isSome_iff_exists.mpr ⟨table, still⟩)
  have updated := (vmmUnmapPage_ok spaces.toForest isRoot ran).updated spaces isRoot canonical
    ((touchable _ low high).grow grows isRoot)
  refine ⟨after, ?_, updated.spaces, grows.trans updated.grows⟩
  rw [address]
  exact ran

end Navy.Paging
