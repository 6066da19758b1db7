import Mathlib.Data.Finset.Card
import Navy.Proofs.LiballocRuns

/-! Pointers that are given back again: what `liballoc_free` left in a header tells. -/

namespace Navy.Liballoc
open FirstFit LinkedList Outcome Paging Paths Leases

variable {blocks blocks' : List Block} {gone old : Chunk} {heap heap' : Liballoc} {initial : Pmm} {roots : Nat → Prop}
  {root limit : Nat} {pool : Pool (BitVec 8)}

/-- A chunk that was given back, and that nothing came over since. -/
structure Stale (heap : Liballoc) (blocks : List Block) (gone : Chunk) : Prop where
  low : mmapIoBase ≤ gone.place
  high : gone.place + 72 ≤ 2 ^ 64
  dead : member heap.kernel.vm.mem gone.place MinorField.magic = liballocDead
  slack : heap.kernel.vm.mem (physical (gone.pointer - alignInfo)) =
    BitVec.ofNat 8 (gone.pointer - (gone.place + minorSize))
  apart : ∀ block ∈ blocks, ∀ address, gone.place ≤ address → address < gone.pointer → ¬ block.Header address

/-- A pointer that was given back leads to a dead header: it is counted, and nothing else
happens. -/
theorem Stale.free (stale : Stale heap blocks gone) :
    heap.free gone.pointer = .ok { heap with lErrorCount := heap.lErrorCount + 1 } := by
  have bounds := gone.pointer_bounds
  have low := stale.low
  have high := stale.high
  have direct : Direct gone.place := ⟨low, by omega⟩
  have back : wrapSub (gone.place + minorSize) minorSize = gone.place := by
    unfold wrapSub wrap
    simp only [minorSize]
    omega
  have header : gone.pointer - (gone.pointer - (gone.place + minorSize)) = gone.place + minorSize := by
    simp only [minorSize]
    omega
  unfold Liballoc.free
  rw [if_neg (by omega), unalign_eq (by omega) (by omega) stale.slack
    (by simp only [minorSize, alignment, alignInfo]; omega), ok_bind]
  simp only [header, back]
  rw [load_minor_bind direct, stale.dead, if_pos (by decide)]
  rfl

/-- No chunk lies over the header of a block. -/
theorem Shows.majors_apart (shows : Shows heap blocks) {block : Block} (inside : block ∈ blocks)
    (among : gone ∈ chunksOf blocks) : block.inner ≤ gone.place ∨ gone.stop ≤ block.base := by
  obtain ⟨other, inside', here⟩ := mem_chunksOf.mp among
  have bounds := (shows.fits other inside').chunk_bounds here
  unfold Block.inner
  simp only [majorSize]
  by_cases same : block = other
  · subst same
    exact .inl bounds.1
  · have apart : block.Apart other := shows.apart.forall inside inside' same
    have pages := (shows.fits block inside).pages.1
    have stop : block.stop = block.base + block.pages * 4096 := rfl
    unfold Block.Apart at apart
    omega

/-- A chunk is stale once it has been given back. -/
theorem Released.stale (released : Released initial roots root heap blocks gone heap' blocks')
    (shows : Shows heap blocks) (among : gone ∈ chunksOf blocks) : Stale heap' blocks' gone := by
  have bounds := shows.pointer_bounds among
  have pointer := gone.pointer_bounds
  simp only [minorSize, alignInfo] at bounds
  obtain ⟨block, inside, here⟩ := mem_chunksOf.mp among
  have slack := ((shows.shown block inside).chunks gone here).slack
  have behind : gone.place + minorSize ≤ gone.pointer - alignInfo := by
    simp only [minorSize, alignInfo]
    omega
  have outside := (shows.body among behind (by simp only [alignInfo]; omega)).2.2
  refine ⟨bounds.2.2.2.2.1, by omega, released.dead, ?_, ?_⟩
  · rw [released.bytes _ (by simp only [alignInfo]; omega) outside]
    exact slack
  · intro other inside' address first last header
    obtain ⟨twin, there, base, -, subset⟩ := released.twins other inside'
    rcases header with ⟨low, high⟩ | ⟨chunk, member, low, high⟩
    · unfold Block.inner at high
      have clear := shows.majors_apart there among
      unfold Block.inner at clear
      omega
    · have left := (released.chunks chunk).mp (mem_chunksOf.mpr ⟨other, inside', member⟩)
      have bounds' := shows.pointer_bounds left.1
      simp only [minorSize, alignInfo] at bounds' high
      rcases shows.chunks_apart left.1 among with same | front | back
      · exact left.2 same
      · omega
      · omega

theorem Stale.kept (stale : Stale heap blocks old)
    (released : Released initial roots root heap blocks gone heap' blocks') :
    Stale heap' blocks' old := by
  have bounds := old.pointer_bounds
  have low := stale.low
  have kept (address : Nat) (first : old.place ≤ address) (last : address < old.pointer) :
      heap'.kernel.vm.mem (physical address) = heap.kernel.vm.mem (physical address) :=
    released.bytes address (Nat.le_trans low first) fun block inside => stale.apart block inside address first last
  refine ⟨low, stale.high, ?_, (kept _ ?_ ?_).trans stale.slack, ?_⟩
  · rw [← stale.dead]
    apply member_congr ⟨low, Nat.le_trans (by omega) stale.high⟩ (by decide) (by decide)
    intro place first last
    simp only [MinorField.field] at first last
    rw [← physical_add place]
    unfold physical at first last
    exact kept _ (by omega) (by omega)
  · simp only [alignInfo]
    omega
  · simp only [alignInfo]
    omega
  · intro block inside address first last header
    obtain ⟨twin, there, base, -, subset⟩ := released.twins block inside
    apply stale.apart twin there address first last
    unfold Block.Header Block.inner at header ⊢
    rw [base]
    exact header.imp_right fun found => found.imp fun chunk both => ⟨subset both.1, both.2⟩

theorem Stale.counted (stale : Stale heap blocks old) (warnings errors : Nat) :
    Stale { heap with lWarningCount := warnings, lErrorCount := errors } blocks old :=
  ⟨stale.low, stale.high, stale.dead, stale.slack, stale.apart⟩

theorem Leased.counted (leased : Leased limit heap blocks pool) (warnings errors : Nat) :
    Leased limit { heap with lWarningCount := warnings, lErrorCount := errors } blocks pool := by
  obtain ⟨⟨listed, shown, fits, apart, given⟩, busy, out, known, pages⟩ := leased
  exact ⟨⟨⟨listed.root, listed.links, listed.bet, listed.allocated, listed.inuse⟩, shown, fits, apart, given⟩, busy,
    out, known, pages⟩

/-- The pool without the leases of some pointers. -/
def ended (pool : Pool (BitVec 8)) (pointers : List Nat) : Pool (BitVec 8) :=
  fun pointer => if pointer ∈ pointers then none else pool pointer

/-- The pointers of some that have a lease. -/
def running (pool : Pool (BitVec 8)) (pointers : List Nat) : Finset Nat :=
  pointers.toFinset.filter fun pointer => (pool pointer).isSome

theorem running_idle {pointer : Nat} {rest : List Nat} (idle : pool pointer = none) :
    running pool (pointer :: rest) = running pool rest := by
  unfold running
  rw [List.toFinset_cons, Finset.filter_insert, idle, if_neg (by simp)]

theorem running_live {pointer : Nat} {rest : List Nat} (live : pool pointer ≠ none) :
    (running pool (pointer :: rest)).card = (running (Function.update pool pointer none) rest).card + 1 := by
  have split : running pool (pointer :: rest) = insert pointer (running (Function.update pool pointer none) rest) := by
    ext other
    simp only [running, List.toFinset_cons, Finset.mem_filter, Finset.mem_insert, List.mem_toFinset]
    by_cases same : other = pointer
    · subst same
      simp [Option.isSome_iff_ne_none, live]
    · simp [same]
  have fresh : pointer ∉ running (Function.update pool pointer none) rest := by
    simp [running]
  rw [split, Finset.card_insert_of_notMem fresh]

theorem ended_idle {pointer : Nat} {rest : List Nat} (idle : pool pointer = none) :
    ended pool (pointer :: rest) = ended pool rest := by
  funext other
  by_cases same : other = pointer
  · subst same
    simp [ended, idle]
  · simp [ended, same]

theorem ended_live (pool : Pool (BitVec 8)) (pointer : Nat) (rest : List Nat) :
    ended (Function.update pool pointer none) rest = ended pool (pointer :: rest) := by
  funext other
  by_cases same : other = pointer
  · subst same
    simp [ended]
  · simp [ended, same]

theorem kfree_null (heap : Liballoc) : heap.kfree 0 = .ok { heap with lWarningCount := heap.lWarningCount + 1 } := by
  unfold kfree Liballoc.free
  rw [if_pos rfl]
  rfl

theorem Leased.null (leased : Leased limit heap blocks pool) : pool 0 = none := by
  refine Decidable.byContradiction fun taken => ?_
  obtain ⟨chunk, among, zero⟩ := leased.known 0 taken
  exact (pointer_physical leased.shows among).2.2 zero

/-- The free of a pointer that has a lease comes back, as long as no block is too large for the hook. -/
theorem Leased.frees {chunk : Chunk} (leased : Leased limit heap blocks pool)
    (ground : Ground initial roots root heap.kernel) (low : limit ≤ pageSize) (among : chunk ∈ chunksOf blocks) :
    ∃ next, heap.kfree chunk.pointer = .ok next ∧ ∃ blocks', Released initial roots root heap blocks chunk next blocks' := by
  apply Meets.returns
  refine (free_releases ground leased.shows leased.busy among).mono (fun _ released => released) fun fault large => ?_
  obtain ⟨block, inside, -, many⟩ := large
  exact absurd (leased.pages block inside) (Nat.not_lt_of_le (Nat.le_trans low many))

/-- After a free its pointer is among those that had a lease. -/
theorem Released.spent {chunk : Chunk} {spent : List Chunk} (leased : Leased limit heap blocks pool)
    (among : chunk ∈ chunksOf blocks) (live : pool chunk.pointer ≠ none)
    (released : Released initial roots root heap blocks chunk heap' blocks')
    (stale : ∀ gone ∈ spent, Stale heap blocks gone ∧ pool gone.pointer = none) :
    ∀ gone ∈ chunk :: spent, Stale heap' blocks' gone ∧ Function.update pool chunk.pointer none gone.pointer = none := by
  intro gone member
  rcases List.mem_cons.mp member with rfl | member
  · exact ⟨released.stale leased.shows among, Function.update_self _ _ _⟩
  · have idle := (stale gone member).2
    have apart : gone.pointer ≠ chunk.pointer := fun same => live (same ▸ idle)
    exact ⟨(stale gone member).1.kept released, (Function.update_of_ne apart _ _).trans idle⟩

/-- The frees of some pointers, each of which has a lease or had one. -/
theorem frees_counted {spent : List Chunk} {pointers : List Nat} (leased : Leased limit heap blocks pool)
    (ground : Ground initial roots root heap.kernel) (low : limit ≤ pageSize)
    (stale : ∀ gone ∈ spent, Stale heap blocks gone ∧ pool gone.pointer = none)
    (known : ∀ pointer ∈ pointers, pointer = 0 ∨ pool pointer ≠ none ∨ ∃ gone ∈ spent, gone.pointer = pointer) :
    ∃ heap', pointers.foldlM kfree heap = .ok heap' ∧ Holds initial limit heap' (ended pool pointers) ∧
      heap'.lWarningCount = heap.lWarningCount + pointers.count 0 ∧ heap'.lPossibleOverruns = heap.lPossibleOverruns ∧
      heap'.lErrorCount + (running pool pointers).card + pointers.count 0 = heap.lErrorCount + pointers.length := by
  induction pointers generalizing heap blocks pool spent with
  | nil =>
    refine ⟨heap, rfl, ⟨blocks, roots, root, ?_, ground⟩, rfl, rfl, rfl⟩
    have same : ended pool [] = pool := by
      funext pointer
      simp [ended]
    rw [same]
    exact leased
  | cons pointer rest ih =>
    have later := fun other among => known other (List.mem_cons_of_mem pointer among)
    rw [List.foldlM_cons]
    by_cases zero : pointer = 0
    · subst zero
      obtain ⟨heap', ran, holds, warnings, overruns, errors⟩ :=
        ih (leased.counted (heap.lWarningCount + 1) heap.lErrorCount) ground
        (fun gone among => ⟨(stale gone among).1.counted _ _, (stale gone among).2⟩) later
      refine ⟨heap', by rw [kfree_null]; exact ran, ?_, ?_, overruns, ?_⟩
      · rw [ended_idle leased.null]
        exact holds
      · rw [List.count_cons_self]
        simp only at warnings
        omega
      · rw [running_idle leased.null, List.count_cons_self, List.length_cons]
        simp only at errors
        omega
    · by_cases live : pool pointer = none
      · obtain ⟨gone, among, rfl⟩ := ((known pointer List.mem_cons_self).resolve_left zero).resolve_left
          (not_not_intro live)
        have turn : heap.kfree gone.pointer = .ok { heap with lErrorCount := heap.lErrorCount + 1 } :=
          (stale gone among).1.free
        obtain ⟨heap', ran, holds, warnings, overruns, errors⟩ :=
          ih (leased.counted heap.lWarningCount (heap.lErrorCount + 1)) ground
          (fun gone among => ⟨(stale gone among).1.counted _ _, (stale gone among).2⟩) later
        refine ⟨heap', by rw [turn]; exact ran, ?_, ?_, overruns, ?_⟩
        · rw [ended_idle live]
          exact holds
        · rw [List.count_cons_of_ne zero]
          exact warnings
        · rw [running_idle live, List.count_cons_of_ne zero, List.length_cons]
          simp only at errors
          omega
      · obtain ⟨chunk, among, rfl⟩ := leased.known pointer live
        obtain ⟨next, turn, blocks', released⟩ := leased.frees ground low among
        have counters := released.counters
        have later' (other : Nat) (inside : other ∈ rest) : other = 0 ∨
          Function.update pool chunk.pointer none other ≠ none ∨
            ∃ gone ∈ chunk :: spent, gone.pointer = other := by
          by_cases same : other = chunk.pointer
          · exact .inr (.inr ⟨chunk, List.mem_cons_self, same.symm⟩)
          · rw [Function.update_of_ne same]
            exact (later other inside).imp_right (·.imp_right fun found => found.imp fun gone both =>
              ⟨List.mem_cons_of_mem _ both.1, both.2⟩)
        obtain ⟨heap', ran, holds, warnings, overruns, errors⟩ :=
          ih (released.leased leased among) released.ground (released.spent leased among live stale) later'
        refine ⟨heap', by rw [turn]; exact ran, ?_, ?_, overruns.trans counters.2.2, ?_⟩
        · rw [← ended_live]
          exact holds
        · rw [List.count_cons_of_ne zero, warnings, counters.1]
        · rw [running_live live, List.count_cons_of_ne zero, List.length_cons]
          have := counters.2.1
          omega

/-- A pointer that is given back again and again is counted once for each time too many,
and takes nothing with it. -/
theorem repeated_frees_counted {events : List (Call (BitVec 8) × Nat)} {pointers : List Nat}
    (untouched : Untouched heap) (ground : Ground initial roots root heap.kernel)
    (made : Path (Round initial limit) heap events heap') (honest : Honest alignment 0 Pool.empty events)
    (low : limit ≤ pageSize)
    (owned : ∀ pool, Run alignment 0 Pool.empty events pool → ∀ pointer ∈ pointers, pointer = 0 ∨ pool pointer ≠ none) :
    ∃ after pool, pointers.foldlM kfree heap' = .ok after ∧ Run alignment 0 Pool.empty events pool ∧
      Holds initial limit after (ended pool pointers) ∧ after.lWarningCount = heap'.lWarningCount + pointers.count 0 ∧
      after.lPossibleOverruns = heap'.lPossibleOverruns ∧
      after.lErrorCount + (pointers.toFinset.erase 0).card + pointers.count 0 =
        heap'.lErrorCount + pointers.length := by
  obtain ⟨pool, run, blocks, roots', root', leased, ground'⟩ := (untouched.holds ground).run made honest
  have known (pointer : Nat) (inside : pointer ∈ pointers) : pointer = 0 ∨ pool pointer ≠ none ∨
    ∃ gone ∈ ([] : List Chunk), gone.pointer = pointer :=
    (owned pool run pointer inside).imp_right .inl
  obtain ⟨after, ran, holds, warnings, overruns, errors⟩ :=
    frees_counted leased ground' low (fun _ among => absurd among List.not_mem_nil) known
  have null := leased.null
  have same : running pool pointers = pointers.toFinset.erase 0 := by
    ext pointer
    simp only [running, Finset.mem_filter, Finset.mem_erase, List.mem_toFinset]
    constructor
    · intro live
      refine ⟨?_, live.1⟩
      rintro rfl
      rw [null] at live
      cases live.2
    · intro both
      exact ⟨both.2, Option.isSome_iff_ne_none.mpr ((owned pool run pointer both.2).resolve_left both.1)⟩
  rw [same] at errors
  exact ⟨after, pool, ran, run, holds, warnings, overruns, errors⟩

theorem repeated_frees_counted_gigabyte : ∃ initial heap middle pointer after,
    Path (Round initial 100) heap [(.malloc roomy, pointer)] middle ∧
    [pointer, 0, pointer, pointer].foldlM kfree middle = .ok after ∧ after.lErrorCount = middle.lErrorCount + 2 ∧
      after.lWarningCount = middle.lWarningCount + 1 := by
  obtain ⟨initial, root, heap, middle, heap', pointer, untouched, ground, made, -, -, named⟩ := gigabyte_session
  have honest : Honest alignment (0 : BitVec 8) Pool.empty [(.malloc roomy, pointer)] :=
    .cons trivial fun _ _ => honest_nil
  have owned (pool : Pool (BitVec 8)) (run : Run alignment 0 Pool.empty [(.malloc roomy, pointer)] pool) (other : Nat)
      (among : other ∈ [pointer, 0, pointer, pointer]) : other = 0 ∨ pool other ≠ none := by
    cases run with
    | cons first rest =>
      cases rest
      cases first with
      | malloc =>
        by_cases zero : other = 0
        · exact .inl zero
        · obtain rfl : other = pointer := by
            simp only [List.mem_cons, List.not_mem_nil, or_false] at among
            tauto
          exact .inr fun none => absurd ((Function.update_self _ _ _).symm.trans none) nofun
  obtain ⟨after, pool, ran, -, -, warnings, -, errors⟩ :=
    repeated_frees_counted untouched ground made honest (by decide) owned
  have once : ([pointer, 0, pointer, pointer].toFinset.erase 0).card = 1 := by
    have single : [pointer, 0, pointer, pointer].toFinset.erase 0 = {pointer} := by
      ext other
      simp only [List.mem_toFinset, Finset.mem_erase, List.mem_cons, List.not_mem_nil, or_false, Finset.mem_singleton]
      constructor
      · tauto
      · rintro rfl
        exact ⟨named, .inl rfl⟩
    rw [single]
    rfl
  have zeros : [pointer, 0, pointer, pointer].count 0 = 1 := by
    simp [named]
  have length : [pointer, 0, pointer, pointer].length = 4 := rfl
  refine ⟨initial, heap, middle, pointer, after, made, ran, ?_, ?_⟩
  · omega
  · omega

end Navy.Liballoc
