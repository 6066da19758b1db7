import Navy.Proofs.AddressSpace

/-! Whether cached translations keep up with the page tables. `vmm_flush` drops
one page, the second of its range, and `vmm_unmap` drops none. -/

namespace Navy.TlbCoherence
open Paging AddressSpace

/-- Every cached translation is the one the tables give. -/
def Coherent (root : Nat) (state : Vm × Tlb) : Prop :=
  ∀ page translation, state.2 page translation →
    Canonical (page * pageSize) ∧ walk state.1.mem root (page * pageSize) = some translation

/-- The page a call drops from the cache. -/
def Dropped : Update → Nat → Prop
  | .map virt _ _, page => page = virt.base / pageSize + 1
  | .unmap _, _ => False

/-- Every page of the range is dropped, or had no translation, or keeps the one it had. -/
def Harmless (root : Nat) (vm : Vm) (update : Update) : Prop :=
  ∀ page ∈ update.range.pages, Dropped update page ∨ walk vm.mem root (page * pageSize) = none ∨
    walk vm.mem root (page * pageSize) = update.target page

def Call (root : Nat) : Update → Vm × Tlb → Vm × Tlb → Prop
  | .map virt phys isUser => MapCall root virt phys isUser
  | .unmap range => UnmapCall root range

/-- Runs of calls on the active space, the cache filling in between. -/
inductive Run (meets : Vm → Update → Prop) (root : Nat) (start : Vm × Tlb) : Vm × Tlb → Prop where
  | start : Run meets root start start
  | fill {vm : Vm} {tlb filled : Tlb} (before : Run meets root start (vm, tlb)) (fills : Fills vm.mem root tlb filled) :
      Run meets root start (vm, filled)
  | call {state after : Vm × Tlb} {update : Update} (before : Run meets root start state) (proper : update.Proper)
      (fine : meets state.1 update) (ran : Call root update state after) : Run meets root start after

theorem Coherent.fill {root : Nat} {vm : Vm} {tlb filled : Tlb} (coherent : Coherent root (vm, tlb))
    (fills : Fills vm.mem root tlb filled) : Coherent root (vm, filled) := by
  intro page translation cached
  cases fills page translation cached with
  | inl old => exact coherent page translation old
  | inr read => exact read

section Loop

variable {root : Nat} {body : Vm → Nat → Checked Vm} {target : Nat → Option Translation} {range : Range}

/-- Only excused pages of the range may be stale. -/
def Mostly (root : Nat) (excused : Nat → Prop) (state : Vm × Tlb) : Prop :=
  ∀ page translation, state.2 page translation → excused page ∨
    Canonical (page * pageSize) ∧ walk state.1.mem root (page * pageSize) = some translation

private theorem Mostly.fill {excused : Nat → Prop} {vm : Vm} {tlb filled : Tlb} (mostly : Mostly root excused (vm, tlb))
    (fills : Fills vm.mem root tlb filled) : Mostly root excused (vm, filled) := by
  intro page translation cached
  cases fills page translation cached with
  | inl old => exact mostly page translation old
  | inr read => exact .inr read

/-- The rounds of a loop from `first` on, which rewrite one page each. -/
private theorem loop_mostly (excused : Nat → Prop) {start : Vm} {first count : Nat} {before after : Vm × Tlb}
    (loop : TableLoop root body (List.range' first count) before after)
    (turn : ∀ vm index after, index < first + count → Spaces (· = root) vm → body vm index = .ok after →
      Updated (· = root) vm root (· = range.base / 4096 + index) target after)
    (harmless : ∀ page, range.base / 4096 ≤ page → page < range.base / 4096 + (first + count) →
      excused page ∨ walk start.mem root (page * pageSize) = none ∨ walk start.mem root (page * pageSize) = target page)
    (spaces : Spaces (· = root) before.1)
    (later : ∀ page, Canonical (page * pageSize) → range.base / 4096 + first ≤ page →
      walk before.1.mem root (page * pageSize) = walk start.mem root (page * pageSize))
    (mostly : Mostly root excused before) : Spaces (· = root) after.1 ∧ Mostly root excused after := by
  induction count generalizing first before with
  | zero =>
    cases loop with
    | done fills => exact ⟨spaces, mostly.fill fills⟩
  | succ count ih =>
    rw [List.range'_succ] at loop
    cases loop with
    | turn fills ran others =>
      rename_i vm next tlb filled
      have updated := turn vm first next (by omega) spaces ran
      have page_of (page : Nat) : page * pageSize / 4096 = page := Nat.mul_div_cancel _ (by decide)
      refine ih others (fun vm index after inside => turn vm index after (by omega))
        (fun page low high => harmless page low (by omega)) updated.spaces ?_ ?_
      · intro page canonical beyond
        rw [updated.misses root _ rfl canonical, later page canonical (by omega)]
        rw [page_of]
        rintro ⟨same, -⟩
        omega
      · intro page translation cached
        rcases (mostly.fill fills) page translation cached with free | ⟨canonical, current⟩
        · exact .inl free
        · by_cases here : page = range.base / 4096 + first
          · -- The page is rewritten in this round, so it was free, untranslated or stays.
            rw [later page canonical (by omega)] at current
            rcases harmless page (by omega) (by omega) with free | none | same
            · exact .inl free
            · rw [none] at current
              cases current
            · refine .inr ⟨canonical, ?_⟩
              rw [updated.hits root _ rfl canonical (by rw [page_of]; exact here) (.inl rfl), page_of, ← same, current]
          · refine .inr ⟨canonical, ?_⟩
            rw [updated.misses root _ rfl canonical fun hit => here (by rw [page_of] at hit; exact hit.1)]
            exact current

private theorem flush_drops {mem : Bytes} {address count : Nat} {tlb after : Tlb}
    (loop : FlushLoop mem root (List.replicate count address) tlb after) :
    ∀ page translation, after page translation → (tlb page translation ∧ (0 < count → page ≠ address / pageSize)) ∨
      Canonical (page * pageSize) ∧ walk mem root (page * pageSize) = some translation := by
  induction count generalizing tlb with
  | zero =>
    cases loop with
    | done fills =>
      exact fun page translation cached => (fills page translation cached).imp_left fun old => ⟨old, nofun⟩
  | succ count ih =>
    cases loop with
    | turn fills others =>
      intro page translation cached
      rcases ih others page translation cached with ⟨⟨apart, old⟩, -⟩ | read
      · exact (fills page translation old).imp_left fun older => ⟨older, fun _ => apart⟩
      · exact .inr read

end Loop

theorem vmmFlush_eq (virt : Range) :
    vmmFlush virt = List.replicate (virt.length / pageSize) (wrap ((virt.base / pageSize + 1) * pageSize)) := by
  simp [vmmFlush, List.map_const']

variable {root : Nat}

private theorem touchable {vm : Vm} {virt : Nat} : Touchable (· = root) vm root virt := .inr (.inr fun _ same => same)

theorem call_coherent {update : Update} {before after : Vm × Tlb} (spaces : Spaces (· = root) before.1)
    (coherent : Coherent root before) (proper : update.Proper) (harmless : Harmless root before.1 update)
    (ran : Call root update before after) : Spaces (· = root) after.1 ∧ Coherent root after := by
  cases update with
  | map virt phys isUser =>
    obtain ⟨range, aligned, length, small⟩ := proper
    obtain ⟨-, tlb, loop, flush⟩ := ran
    have bound := range.bound
    rw [List.range_eq_range'] at loop
    let excused (page : Nat) : Prop := page = virt.base / 4096 + 1 ∧ page < virt.base / 4096 + virt.length / 4096
    obtain ⟨after_spaces, mostly⟩ := loop_mostly excused loop
      (fun vm index next inside spaces ran => mapTurn_updated range aligned (Nat.le_trans small (by decide)) length
        (by rw [Nat.zero_add] at inside; exact inside) spaces rfl touchable ran)
      (fun page low high => by
        rw [Nat.zero_add] at high
        exact (harmless page (Range.mem_pages.mpr ⟨low, high⟩)).imp_left fun dropped => ⟨dropped, high⟩)
      spaces (fun _ _ _ => rfl) (fun page translation cached => .inr (coherent page translation cached))
    refine ⟨after_spaces, fun page translation cached => ?_⟩
    rw [vmmFlush_eq] at flush
    rcases flush_drops flush page translation cached with ⟨old, apart⟩ | read
    · refine (mostly page translation old).resolve_left ?_
      -- An excused page is the one the flush names.
      rintro ⟨rfl, inside⟩
      have named : wrap ((virt.base / pageSize + 1) * pageSize) / pageSize = virt.base / 4096 + 1 := by
        rw [wrap_of_lt (by simp only [pageSize]; omega)]
        exact Nat.mul_div_cancel _ (by decide)
      exact apart (by simp only [pageSize]; omega) named.symm
    · exact read
  | unmap range =>
    have loop := ran.loop
    rw [List.range_eq_range'] at loop
    obtain ⟨after_spaces, mostly⟩ := loop_mostly (fun _ => False) loop
      (fun vm index next inside spaces ran =>
        unmapTurn_updated proper (by rw [Nat.zero_add] at inside; exact inside) spaces rfl touchable ran)
      (fun page low high => by
        rw [Nat.zero_add] at high
        exact harmless page (Range.mem_pages.mpr ⟨low, high⟩))
      spaces (fun _ _ _ => rfl) (fun page translation cached => .inr (coherent page translation cached))
    exact ⟨after_spaces, fun page translation cached => (mostly page translation cached).resolve_left id⟩

private theorem fills_none (mem : Bytes) (tlb : Tlb) : Fills mem root tlb tlb := fun _ _ cached => .inl cached

private theorem table_idle {body : Vm → Nat → Checked Vm} {turns : List Nat} {vm after : Vm} (tlb : Tlb)
    (ran : turns.foldlM body vm = .ok after) : TableLoop root body turns (vm, tlb) (after, tlb) := by
  induction turns generalizing vm with
  | nil =>
    cases ran
    exact .done (fills_none _ _)
  | cons index rest ih =>
    rw [List.foldlM_cons] at ran
    obtain ⟨next, first, last⟩ := Outcome.bind_ok ran
    exact .turn (fills_none _ _) first (ih last)

private theorem flush_idle {mem : Bytes} {addresses : List Nat} {tlb : Tlb}
    (apart : ∀ address ∈ addresses, ∀ page translation, tlb page translation → page ≠ address / pageSize) :
    FlushLoop mem root addresses tlb tlb := by
  induction addresses with
  | nil => exact .done (fills_none _ _)
  | cons address rest ih =>
    refine .turn (fills_none _ _) ?_
    have same : invlpg tlb address = tlb := by
      funext page translation
      exact propext ⟨And.right, fun cached => ⟨apart address (by simp) page translation cached, cached⟩⟩
    rw [same]
    exact ih fun address member => apart address (by simp [member])

private theorem call_idle {update : Update} {vm after : Vm} {tlb : Tlb}
    (ran : update.perform (mmapPhysToIo root) vm = .ok after)
    (apart : ∀ virt phys isUser, update = .map virt phys isUser → ∀ address ∈ vmmFlush virt,
      ∀ page translation, tlb page translation → page ≠ address / pageSize) :
    Call root update (vm, tlb) (after, tlb) := by
  cases update with
  | map virt phys isUser =>
    obtain ⟨⟨⟩, equal, ran⟩ := Outcome.bind_ok ran
    exact ⟨check_ok equal, tlb, table_idle tlb ran, flush_idle (apart virt phys isUser rfl)⟩
  | unmap range => exact ⟨table_idle tlb ran⟩

/-- The condition is exact: a call that does not meet it can return with a
stale translation in the cache, even from an empty one. -/
theorem stale_otherwise {update : Update} {vm after : Vm} (spaces : Spaces (· = root) vm) (proper : update.Proper)
    (ran : update.perform (mmapPhysToIo root) vm = .ok after) (harmful : ¬ Harmless root vm update) :
    ∃ tlb, Coherent root (vm, tlb) ∧ Call root update (vm, tlb) (after, tlb) ∧
      ∃ page ∈ update.range.pages, ∃ translation, tlb page translation ∧
        walk after.mem root (page * pageSize) ≠ some translation := by
  simp only [Harmless, not_forall, not_or] at harmful
  obtain ⟨page, inside, kept, mapped, other⟩ := harmful
  obtain ⟨translation, old⟩ := Option.ne_none_iff_exists'.mp mapped
  let tlb : Tlb := fun place cached => place = page ∧ cached = translation
  have range : Paging.Proper update.range := by
    cases update with
    | map virt phys isUser => exact proper.1
    | unmap range => exact proper
  have place := Range.mem_pages.mp inside
  have base := range.base
  have bound := range.bound
  have canonical : Canonical (page * pageSize) :=
    range.canonical _ (by simp only [pageSize]; omega) (by simp only [pageSize]; omega)
  refine ⟨tlb, ?_, ?_, page, inside, translation, ⟨rfl, rfl⟩, fun same => ?_⟩
  · rintro _ _ ⟨rfl, rfl⟩
    exact ⟨canonical, old⟩
  · apply call_idle ran
    rintro virt phys isUser rfl address member _ _ ⟨rfl, rfl⟩ named
    rw [vmmFlush_eq] at member
    rw [List.eq_of_mem_replicate member] at named
    apply kept
    show _ = virt.base / pageSize + 1
    simp only [Update.range, wrap, pageSize] at place base bound named ⊢
    omega
  · have updated := Update.updated spaces rfl proper (fun _ _ _ => touchable) ran
    have here : page * pageSize / 4096 = page := Nat.mul_div_cancel _ (by decide)
    rw [updated.hits root _ rfl canonical (by rw [here]; exact inside) (.inl rfl), here] at same
    exact other (old.trans same.symm)

/-- In every run of harmless calls no cached translation differs from the tables. -/
theorem tlb_coherent {start : Vm × Tlb} (forest : Forest (· = root) start.1) (coherent : Coherent root start)
    {state : Vm × Tlb} (run : Run (Harmless root) root start state) :
    Spaces (· = root) state.1 ∧ Coherent root state := by
  induction run with
  | start => exact ⟨.alone forest, coherent⟩
  | fill before fills ih => exact ⟨ih.1, ih.2.fill fills⟩
  | call before proper fine ran ih => exact call_coherent ih.1 ih.2 proper fine ran

section Remapping

private def blank : Vm := ⟨fun _ => 0#8, ⟨fun _ => 0#8, 64, 64, 1⟩, 0, []⟩

private def mapOnto (frame : Nat) : Update := .map ⟨0x400000, 0x1000⟩ ⟨frame, 0x1000⟩ true

private theorem mapOnto_proper {frame : Nat} (aligned : frame % 4096 = 0) (small : frame + 4096 ≤ 2 ^ 52) :
    (mapOnto frame).Proper :=
  ⟨⟨by decide, by decide, by decide, fun virt _ high => .inl (Nat.lt_of_lt_of_le high (by decide))⟩,
    aligned, rfl, small⟩

private theorem blank_shows : Shows 0x100000 blank fun _ => none := by
  refine Shows.empty (show 8 * 64 * 4096 < 2 ^ 64 by decide) (by decide) (by decide) (fun index => ?_) ?_
  · simp only [tableEntry, blank, Bytes.read_zero, ite_self, emptyEntry]
  · rintro ⟨bound, _⟩
    exact absurd bound (by decide)

private theorem blank_maps : ∃ first second, (mapOnto 0x8000).perform (mmapPhysToIo 0x100000) blank = .ok first ∧
    (mapOnto 0x9000).perform (mmapPhysToIo 0x100000) first = .ok second := by
  obtain ⟨second, ran⟩ := Outcome.exists_of_isOk
    ((mapOnto 0x8000).perform (mmapPhysToIo 0x100000) blank >>= (mapOnto 0x9000).perform (mmapPhysToIo 0x100000))
    (by decide +kernel)
  obtain ⟨first, one, two⟩ := Outcome.bind_ok ran
  exact ⟨first, second, one, two⟩

private theorem first_call {first : Vm} (ran : (mapOnto 0x8000).perform (mmapPhysToIo 0x100000) blank = .ok first) :
    Call 0x100000 (mapOnto 0x8000) (blank, fun _ _ => False) (first, fun _ _ => False) ∧
    Shows 0x100000 first ((mapOnto 0x8000).apply fun _ => none) :=
  ⟨call_idle ran (by simp), blank_shows.perform (mapOnto_proper (by decide) (by decide)) ran⟩

private theorem blank_coherent : Coherent 0x100000 (blank, fun _ _ => False) := fun _ _ cached => False.elim cached

/-- A page mapped a second time can still be read through its first frame. -/
theorem remapped_page_stale : ∃ start before after,
    Coherent 0x100000 start ∧ Run (fun _ _ => True) 0x100000 start before ∧ Call 0x100000
      (mapOnto 0x9000) before after ∧
    ∃ page ∈ (mapOnto 0x9000).range.pages, ∃ translation, after.2 page translation ∧
      walk after.1.mem 0x100000 (page * pageSize) ≠ some translation := by
  obtain ⟨first, second, one, two⟩ := blank_maps
  obtain ⟨called, shows⟩ := first_call one
  have mapped : walk first.mem 0x100000 (0x400 * pageSize) = some ⟨0x8000, true, true⟩ := by
    rw [shows.walks _ (.inl (by decide))]
    decide
  have harmful : ¬ Harmless 0x100000 first (mapOnto 0x9000) := by
    intro harmless
    rcases harmless 0x400 (by decide) with dropped | none | same
    · exact absurd (show 0x400 = 0x400000 / pageSize + 1 from dropped) (by decide)
    · rw [mapped] at none
      cases none
    · rw [mapped] at same
      exact absurd same (by decide)
  obtain ⟨tlb, coherent, again, page, inside, stale⟩ :=
    stale_otherwise (.alone shows.forest) (mapOnto_proper (by decide) (by decide)) two harmful
  have run : Run (fun _ _ => True) 0x100000 (blank, fun _ _ => False) (first, tlb) :=
    .fill (.call .start (mapOnto_proper (by decide) (by decide)) trivial called)
      fun page translation cached => .inr (coherent page translation cached)
  exact ⟨_, _, _, blank_coherent, run, again, page, inside, stale⟩

/-- A first mapping is harmless, and the cache may then hold it. -/
theorem tlb_coherent_first_mapping : ∃ state, Run (Harmless 0x100000) 0x100000 (blank, fun _ _ => False) state ∧
    state.2 0x400 ⟨0x8000, true, true⟩ ∧ Coherent 0x100000 state := by
  obtain ⟨first, second, one, two⟩ := blank_maps
  obtain ⟨called, shows⟩ := first_call one
  have mapped : walk first.mem 0x100000 (0x400 * pageSize) = some ⟨0x8000, true, true⟩ := by
    rw [shows.walks _ (.inl (by decide))]
    decide
  have harmless : Harmless 0x100000 blank (mapOnto 0x8000) := by
    intro page inside
    have place := Range.mem_pages.mp inside
    refine .inr (.inl ?_)
    rw [blank_shows.walks _ (.inl ?_)]
    simp only [mapOnto, Update.range, pageSize] at place ⊢
    omega
  let tlb : Tlb := fun page translation => page = 0x400 ∧ translation = ⟨0x8000, true, true⟩
  have run : Run (Harmless 0x100000) 0x100000 (blank, fun _ _ => False) (first, tlb) := by
    refine .fill (.call .start (mapOnto_proper (by decide) (by decide)) harmless called) ?_
    rintro _ _ ⟨rfl, rfl⟩
    exact .inr ⟨.inl (by decide), mapped⟩
  exact ⟨_, run, ⟨rfl, rfl⟩, (tlb_coherent blank_shows.forest blank_coherent run).2⟩

end Remapping

end Navy.TlbCoherence
