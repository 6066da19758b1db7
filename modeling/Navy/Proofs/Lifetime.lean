import Navy.Proofs.LiveSystem

/-! What the life of a process costs. The teardown gives back the user stack and
the PML4; segments and the tables below the PML4 stay in the ledger for ever. -/

namespace Navy
open Paging Outcome

variable {roots : Nat → Prop} {initial : Pmm} {root : Nat}

/-- What is free afterwards was free before. -/
theorem Paging.Enters.available {kind : Owner → Prop} {vm after : Vm} (enters : Enters kind vm after)
    (ledger : Ledger initial vm) {page : Nat} (free : Available after.pmm page) : Available vm.pmm page := by
  have later := enters.ledger ledger
  refine ⟨ledger.accounts.size ▸ later.accounts.size ▸ free.1, ?_⟩
  by_contra taken
  have set := ledger.taken later (fun entry => enters.kept) (show isSetPmm vm.pmm page = true by
    rw [Pmm.isSetPmm_eq]
    simpa [Pmm.Free] using taken)
  rw [Pmm.isSetPmm_eq, free.2] at set
  cases set

/-- An entry of the ledger that no teardown gives back. -/
def Lasting (owner : Owner) : Prop := owner = .table ∨ ∃ pml, owner = .segment pml

/-- A table below the user half of a new space is new too, and in the ledger as a table. -/
theorem Paging.Created.below {start vm after : Vm} {fresh index table : Nat}
    (created : Created roots root start fresh vm) (new : ¬ roots fresh) (ledger : Ledger initial vm)
    (sound : Sane initial (fun other => roots other ∨ other = fresh) root after)
    (moves : Moves (fun other => roots other ∨ other = fresh) vm after) (enters : Enters (· ≠ .root) vm after)
    (user : index < 256) (hit : follow after.mem fresh [index] = some table) :
    Available start.pmm (table / 4096) ∧ ∃ entry ∈ after.owners, entry.1 = .table ∧ table / 4096 ∈ entry.2.pages := by
  have isTable : IsTable (fun other => roots other ∨ other = fresh) after.mem table :=
    ⟨fresh, [index], .inr rfl, by simp, hit⟩
  -- the user half is reached from one space along one path
  have only {vm : Vm} (spaces : Spaces (fun other => roots other ∨ other = fresh) vm) {other : Nat} {path : List Nat}
      (isRoot : roots other ∨ other = fresh) (short : path.length ≤ 3) (hit : follow vm.mem fresh [index] = some table)
      (again : follow vm.mem other path = some table) : path = [index] ∧ other = fresh := by
    obtain ⟨rfl, same | shared⟩ := spaces.separated.apart (.inr rfl) isRoot (by simp) short hit again
    · exact ⟨rfl, same.symm⟩
    · exact absurd shared (Nat.not_le_of_lt user)
  have free : Available vm.pmm (table / 4096) := by
    refine (moves.fresh table isTable).resolve_left fun old => ?_
    obtain ⟨other, path, isRoot, short, reached⟩ := old
    obtain ⟨rfl, rfl⟩ := only sound.spaces isRoot short hit (moves.paths other path table isRoot short reached)
    rcases created.tables table ⟨_, _, isRoot, short, reached⟩ with before | rfl
    · obtain ⟨other, path, old, short, early⟩ := before
      have kept := created.grows.paths other path table old short early
      have same := (only created.spaces (.inl old) short reached kept).2
      exact new (same ▸ old)
    · have here : follow vm.mem table [] = some table := rfl
      exact absurd (only created.spaces (.inr rfl) (by simp) reached here).1 (by simp)
  refine ⟨created.grows.available _ free, ?_⟩
  have inside : table / 4096 < after.pmm.bitmapSize := by
    rw [sound.ledger.accounts.size, ← ledger.accounts.size]
    exact free.1
  have taken : after.pmm.bitmap.bit (table / 4096) = true := by
    by_contra clear
    exact sound.spaces.reserved table isTable ⟨inside, by simpa [Pmm.Free] using clear⟩
  rcases (sound.ledger.accounts.bits _).mp taken with start | ⟨range, live, here⟩
  · have clear := (ledger.accounts.free free.2).1
    exact absurd start (by simpa [Pmm.Free] using clear)
  · obtain ⟨entry, member, rfl⟩ := List.mem_map.mp live
    refine ⟨entry, member, ?_, here⟩
    by_contra other
    have notRoot : entry.1 ≠ .root := by
      obtain ⟨added, entered⟩ := enters
      rw [entered.owners] at member
      rcases List.mem_append.mp member with late | early
      · exact entered.kinds entry late
      · exact absurd free (ledger.gone early here)
    exact (sound.held entry member notRoot other _ here).apart table isTable rfl

/-- Frames of a segment that were free before. -/
def NewSegment (pml : Nat) (vm after : Vm) : Prop :=
  ∃ entry ∈ after.owners, entry.1 = .segment pml ∧ entry.2.length ≠ 0 ∧ ∀ page ∈ entry.2.pages, Available vm.pmm page

/-- The loop over the headers leaves the machine alone, or frames of a segment in the ledger. -/
theorem loadSegments_new {elf : Range} {pml fuel phdr : Nat} {vm after : Vm} (ledger : Ledger initial vm)
    (ran : (loadSegments elf pml fuel phdr vm).outcome = .ok after) : after = vm ∨ NewSegment pml vm after := by
  have step (phdr type : Nat) (state next : Vm) (kept : Enters (SegmentOwner pml) vm state ∧
    (state = vm ∨ NewSegment pml vm state))
      (turn : (loadHeader elf pml phdr type state).outcome = .ok next) :
      Enters (SegmentOwner pml) vm next ∧ (next = vm ∨ NewSegment pml vm next) := by
    obtain ⟨before, unchanged⟩ := kept
    have enters := loadHeader_enters turn
    refine ⟨before.trans enters, ?_⟩
    unfold loadHeader at turn
    split at turn
    next =>
      obtain ⟨-, addr, some, given, entered, tables⟩ := loadSegment_enters turn
      refine .inr ⟨(.segment pml, addr), tables.kept ?_, rfl, some, fun page inside => ?_⟩
      · rw [entered.owners]
        exact List.mem_cons_self
      · exact before.available ledger (entered.was (before.ledger ledger) List.mem_cons_self inside)
    next =>
      obtain rfl := Except.ok.inj turn
      exact unchanged
  exact (loadSegments_keeps step ⟨.refl _ _, .inl rfl⟩ ran).2

/-- Every load takes frames for a segment or for a table. -/
theorem loadElfModule_lasting {kernel grown : Kernel} {elf : Range} {block bstack : HeapCall} {process : Process}
    (sound : Sane initial roots root kernel.vm) (homed : Homed roots kernel)
    (ran : (loadElfModule kernel elf block bstack).outcome = .ok (process, grown)) :
    ∃ entry ∈ grown.vm.owners, Lasting entry.1 ∧ ∃ page ∈ entry.2.pages, Available kernel.vm.pmm page := by
  obtain ⟨pml, vm, loaded, made, loop, task⟩ := loadElfModule_ok ran
  obtain ⟨range, -, -, entered, -⟩ := vmmSpaceCreate_entered made
  have ledger := entered.ledger sound.ledger
  have space : Enters (· = .root) kernel.vm vm := ⟨_, entered⟩
  rcases loadSegments_new ledger loop with rfl | ⟨entry, member, kind, some, free⟩
  · -- no segment at all: the stack needs a table of its own
    obtain ⟨fresh, rfl, created⟩ := vmmSpaceCreate_ok sound.spaces sound.isRoot sound.own made
    obtain ⟨sound', -⟩ := created.sound sound made
    have new : ¬ roots fresh := fun old => created.unreached ⟨fresh, [], old, by simp, rfl⟩
    have homed' : Homed (fun other => roots other ∨ other = fresh) { kernel with vm := loaded } := by
      intro space chosen
      have same : Homed roots { kernel with vm := loaded } := homed.congr rfl created.grows.kernel
      obtain ⟨home, isHome, rfl⟩ := same space chosen
      exact ⟨home, .inl isHome, rfl⟩
    obtain ⟨took, -, stacked⟩ := taskInit_took sound' homed' (.inr rfl) (fun clash => new (clash ▸ sound.isRoot)) task
    have walked := stacked 0 (by decide)
    rw [took.sound.spaces.toForest.walk_eq (.inr rfl)] at walked
    obtain ⟨leaf, reached, -⟩ := Option.bind_eq_some_iff.mp walked
    obtain ⟨pml3, pml2, pml1, links⟩ := follow_links (Option.isSome_iff_exists.mpr ⟨leaf, reached⟩)
    obtain ⟨free, entry, member, kind, inside⟩ := created.below new sound'.ledger took.sound took.moves took.enters
      (by decide) links.reached3
    exact ⟨entry, member, .inl kind, _, inside, free⟩
  · have task := (taskInit_made ((loadSegments_enters loop).ledger ledger) task).2.2
    have aligned := ((loadSegments_enters loop).ledger ledger).accounts.aligned entry.2 (List.mem_map_of_mem member)
    have first : entry.2.base / 4096 ∈ entry.2.pages := Range.mem_pages.mpr (by omega)
    exact ⟨entry, task.enters.kept member, .inr ⟨_, kind⟩, _, first, space.available sound.ledger (free _ first)⟩

/-- No step gives such an entry back. -/
theorem Rightful.lasting {system after : System} {action : SystemAction}
    (rightful : Rightful system action after) {entry : Owner × Range} (member : entry ∈ system.kernel.vm.owners)
    (lasting : Lasting entry.1) :
    entry ∈ after.kernel.vm.owners := by
  by_cases slain : ∃ process, Slain system action process
  · obtain ⟨process, slain⟩ := slain
    rw [(rightful.slain process slain).frames.left]
    have notRoot : entry ≠ rootEntry process := by
      rintro rfl
      rcases lasting with table | ⟨pml, segment⟩
      · cases table
      · cases segment
    have notStack : entry ≠ stackEntry process := by
      rintro rfl
      rcases lasting with table | ⟨pml, segment⟩
      · cases table
      · cases segment
    exact (List.mem_erase_of_ne notRoot).mpr ((List.mem_erase_of_ne notStack).mpr member)
  · exact rightful.kept (fun process here => slain ⟨process, here⟩) entry member

/-- Nor does a run. -/
theorem System.Leads.lasting {table : List Process} {system after : System}
    (leads : System.Leads FirstVisit system after) (owned : Owned initial table system) {entry : Owner × Range}
    (member : entry ∈ system.kernel.vm.owners) (lasting : Lasting entry.1) :
    entry ∈ after.kernel.vm.owners ∧ ∃ list, Owned initial list after := by
  induction leads with
  | refl => exact ⟨member, table, owned⟩
  | tail _ step ih =>
    obtain ⟨action, first, ran⟩ := step
    obtain ⟨member, list, owned⟩ := ih
    obtain ⟨next, rightful⟩ := owned.act first ran
    exact ⟨rightful.lasting member lasting, next⟩

/-- Every frame allocated in the end was allocated at the start, or is the heap's. -/
def Returned (before after : Vm) : Prop :=
  ∀ page, isSetPmm after.pmm page = true → isSetPmm before.pmm page = true ∨ heapOwned after (page * 4096) = true

/-- What a page of such an entry becomes. -/
theorem Paging.Ledger.lasting {vm : Vm} (ledger : Ledger initial vm) {entry : Owner × Range}
    (member : entry ∈ vm.owners) (lasting : Lasting entry.1) {page : Nat} (inside : page ∈ entry.2.pages) :
    isSetPmm vm.pmm page = true ∧ heapOwned vm (page * 4096) = false := by
  refine ⟨?_, ledger.unheaped member ?_ (by rwa [Nat.mul_div_cancel _ (by decide)])⟩
  · rw [Pmm.isSetPmm_eq]
    exact (ledger.accounts.bits page).mpr (.inr ⟨entry.2, List.mem_map_of_mem member, inside⟩)
  · rcases lasting with table | ⟨pml, segment⟩
    · simp [table]
    · simp [segment]

theorem kept_allocated {table : List Process} {loaded after : System} (owned : Owned initial table loaded)
    (later : System.Leads FirstVisit loaded after) {entry : Owner × Range} (member : entry ∈ loaded.kernel.vm.owners)
    (lasting : Lasting entry.1) {page : Nat} (inside : page ∈ entry.2.pages) :
    isSetPmm after.kernel.vm.pmm page = true ∧ heapOwned after.kernel.vm (page * 4096) = false := by
  obtain ⟨member, list, later⟩ := later.lasting owned member lasting
  exact later.ledger.lasting member lasting inside

theorem not_returned {table : List Process} {owner : Pmm} {system loaded after : System} {elf : Range}
    {block bstack : HeapCall} (live : Live initial root table system) (owned : Owned owner table system)
    (loads : system.act (.load elf block bstack) = .ok loaded) (later : System.Leads FirstVisit loaded after) :
    ¬ Returned system.kernel.vm after.kernel.vm := by
  intro returned
  have next := owned.load loads
  obtain ⟨⟨process, kernel⟩, loading, rest⟩ := bind_ok loads
  obtain ⟨⟨⟩, -, rest⟩ := bind_ok rest
  obtain rfl := Except.ok.inj rest
  obtain ⟨entry, member, lasting, page, inside, free⟩ :=
    loadElfModule_lasting live.sound (live.homed live.current) loading
  obtain ⟨set, unheaped⟩ := kept_allocated next later member lasting inside
  rcases returned page set with before | heap
  · rw [Pmm.isSetPmm_eq, free.2] at before
    cases before
  · rw [unheaped] at heap
    cases heap

/-- Whatever module is loaded and whatever happens to its process, the frames of
its segments and of the tables below its PML4 stay allocated, and there are some. -/
theorem lifetime_leaks {system loaded after : System} {elf : Range} {block bstack : HeapCall}
    (run : System.Run Orderly system) (loads : system.act (.load elf block bstack) = .ok loaded)
    (later : System.Leads FirstVisit loaded after) :
    (∀ entry ∈ loaded.kernel.vm.owners, Lasting entry.1 → ∀ page ∈ entry.2.pages,
      isSetPmm after.kernel.vm.pmm page = true ∧ heapOwned after.kernel.vm (page * 4096) = false) ∧
    ¬ Returned system.kernel.vm after.kernel.vm := by
  obtain ⟨initial, owner, root, table, live, owned⟩ := run_live run
  exact ⟨fun entry member lasting page => kept_allocated (owned.load loads) later member lasting,
    not_returned live owned loads later⟩

/-- From boot over a load to the teardown of the process that was loaded. -/
structure Lived (start : System) (elf : Range) (block bstack : HeapCall) (loaded after : System) : Prop where
  boots : ∀ meets, System.Run meets start
  loads : start.act (.load elf block bstack) = .ok loaded
  leads : System.Leads FirstVisit loaded after
  reaped : ∃ visit first process, loaded.loaded = [first] ∧ process.pml = first.pml ∧ Slain visit sweep process ∧
    visit.act sweep = .ok after

theorem gigabyte_lives : ∃ start elf block bstack loaded after, Lived start elf block bstack loaded after := by
  obtain ⟨start, loaded, elf, block, bstack, vm, sched, blocks, process, visited⟩ := gigabyte_visit
  obtain ⟨once, blocks', -, -, swept⟩ := visited.sweeps
  obtain ⟨first, only, pml, -⟩ := visited.made
  have visit : FirstVisit ⟨⟨sched, vm⟩, [], 1, blocks, []⟩ sweep := fun _ _ => List.not_mem_nil
  exact ⟨start, elf, block, bstack, loaded, _, visited.boots, visited.loads, .tail visited.leads ⟨sweep, visit, swept⟩,
    ⟨_, first, process, only, pml, ⟨⟨_, _, rfl⟩, visited.due vm blocks [], visited.waiting⟩, swept⟩⟩

theorem lifetime_leaks_reaped : ∃ start elf block bstack loaded after, Lived start elf block bstack loaded after ∧
    ¬ Returned start.kernel.vm after.kernel.vm := by
  obtain ⟨start, elf, block, bstack, loaded, after, lived⟩ := gigabyte_lives
  exact ⟨start, elf, block, bstack, loaded, after, lived,
    (lifetime_leaks (lived.boots Orderly) lived.loads lived.leads).2⟩

/-- A process that lives and is torn down leaves a table behind. -/
theorem table_lost : ¬ ∀ start elf block bstack loaded after, Lived start elf block bstack loaded after →
    Returned start.kernel.vm after.kernel.vm := by
  intro claim
  obtain ⟨start, elf, block, bstack, loaded, after, lived⟩ := gigabyte_lives
  obtain ⟨initial, owner, root, table, live, owned⟩ := run_live (lived.boots Orderly)
  exact not_returned live owned lived.loads lived.leads (claim _ _ _ _ _ _ lived)

end Navy
