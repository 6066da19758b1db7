import Navy.Proofs.FirstProcess
import Navy.Proofs.LiballocClients

/-! Whole runs of the heap, from the start of the kernel on. -/

namespace Navy.Liballoc
open FirstFit LinkedList Outcome Paging Paths Leases

variable {heap heap' : Liballoc} {initial : Pmm} {roots : Nat → Prop} {root limit : Nat} {pool : Pool (BitVec 8)}
  {events : List (Call (BitVec 8) × Nat)} {call : Call (BitVec 8)}

/-- What a run of rounds shows, if its clients keep to their leases. -/
theorem Holds.run (holds : Holds initial limit heap pool) (made : Path (Round initial limit) heap events heap')
    (honest : Honest alignment 0 pool events) : ∃ pool', Run alignment 0 pool events pool' ∧
      Holds initial limit heap' pool' := by
  have meets (heap : Liballoc) (pool : Pool (BitVec 8)) (event : Call (BitVec 8) × Nat) (between : Liballoc)
      (holds : Holds initial limit heap pool) (permitted : Permitted pool event.1)
        (round : Round initial limit heap event between) :
      ∃ middle, Step alignment 0 pool event.1 event.2 middle ∧ Holds initial limit between middle :=
        round_answers holds permitted round
  exact serves_run meets made holds honest

/-- The statics of `liballoc.c` on a machine. -/
def start (kernel : Kernel) : Liballoc := ⟨kernel, 0, 0, 0, 0, 0, 0, 0⟩

theorem start_untouched (kernel : Kernel) : Untouched (start kernel) := ⟨rfl, rfl, rfl, rfl⟩

/-- A gigabyte machine after `vmm_init` has pages for the heap. -/
theorem gigabyte_lends : ∃ initial root vm pointer grown,
    Ground initial (· = root) root ⟨.zero, vm⟩ ∧ liballocAlloc ⟨.zero, vm⟩ 64 = .ok (pointer, grown) := by
  obtain ⟨pmm, initial, block, root, vm, after, placed, booted, allocated, -⟩ := gigabyte_heap fun _ => 0
  have fits : gigabyte.Fits := by constructor <;> simp [gigabyte]
  obtain ⟨home, sound, -⟩ := vmmInit_sane fits placed booted
  have homed : Homed (· = home) (Kernel.mk .zero vm) := by
    intro space chosen
    obtain rfl := Except.ok.inj chosen
    exact ⟨home, rfl, sound.own.pml4⟩
  exact ⟨pmm, home, vm, _, _, ⟨sound, homed⟩, allocated⟩

/-- What a block of 64 pages has room for. -/
def roomy : Nat := 64 * 4096 - 112

theorem roomy_sized {limit : Nat} (above : 64 < limit) (call : Call (BitVec 8)) (asked : asks call = some roomy) :
    Sized limit call := by
  intro size same
  obtain rfl := Option.some.inj (same.symm.trans asked)
  exact ⟨⟨by decide, by decide⟩, Nat.lt_of_le_of_lt (by decide) above⟩

theorem Foreign.none {kernel : Kernel} (ground : Ground initial roots root kernel) : Foreign initial kernel kernel :=
  ⟨⟨roots, root, ground⟩, ⟨fun _ owned => owned, fun _ member => member⟩, fun _ _ => rfl⟩

/-- A call that came back, with nothing happening after it. -/
theorem Holds.served {result : Nat × Liballoc} (holds : Holds initial limit heap pool)
    (permitted : Permitted pool call) (sized : Sized limit call) (ran : heap.serve call = .ok result) :
    Round initial limit heap (call, result.1) result.2 ∧
      ∃ next, Step alignment 0 pool call result.1 next ∧ Holds initial limit result.2 next := by
  obtain ⟨next, step, holds'⟩ := ((serve_meets holds permitted sized).ran ran).step
  refine ⟨?_, next, step, holds'⟩
  obtain ⟨blocks, roots, root, leased, ground⟩ := holds'
  exact ⟨sized, result.2, result.2.kernel, ran, .none ground, rfl⟩

/-- A call of an honest client that nothing happens after. -/
theorem Holds.round (holds : Holds initial limit heap pool) (permitted : Permitted pool call)
    (sized : Sized limit call) (low : limit ≤ pageSize)
    (fed : ∀ size fault, asks call = some size → ¬ Starves heap size fault) :
    ∃ result after next, Round initial limit heap (call, result) after ∧ Step alignment 0 pool call result next ∧
      Holds initial limit after next := by
  have meets := serve_meets holds permitted sized
  cases ran : heap.serve call with
  | error fault =>
    rw [ran] at meets
    rcases meets with ⟨size, asked, starves⟩ | large
    · exact absurd starves (fed size fault asked)
    · exact absurd low (Nat.not_le_of_lt large)
  | ok result =>
    obtain ⟨round, next, step, holds'⟩ := holds.served permitted sized ran
    exact ⟨result.1, result.2, next, round, step, holds'⟩

/-- On the gigabyte machine a client takes what a block of 64 pages has room for, and
gives it back. -/
theorem gigabyte_session : ∃ initial root heap middle heap' pointer, Untouched heap ∧
    Ground initial (· = root) root heap.kernel ∧
    Path (Round initial 100) heap [(.malloc roomy, pointer)] middle ∧ Path (Round initial 100) heap
      [(.malloc roomy, pointer), (.free pointer, 0)] heap' ∧
    Honest alignment (0 : BitVec 8) Pool.empty [(.malloc roomy, pointer), (.free pointer, 0)] ∧ pointer ≠ 0 := by
  obtain ⟨initial, root, vm, block, grown, ground, lends⟩ := gigabyte_lends
  have untouched := start_untouched ⟨.zero, vm⟩
  have holds : Holds initial 100 (start ⟨.zero, vm⟩) Pool.empty := untouched.holds ground
  have fed (size : Nat) (fault : Fault) (asked : asks (.malloc roomy) = some size) : ¬ Starves
    (start ⟨.zero, vm⟩) size fault := by
    intro starves
    obtain rfl := Option.some.inj asked
    have failed := starves.1
    have pages : pagesWanted (roomy + (alignment + alignInfo)) = 64 := by decide
    rw [pages] at failed
    exact absurd (failed.symm.trans lends) nofun
  obtain ⟨pointer, middle, next, taken, step, holds'⟩ := @Holds.round _ _ _ _ (.malloc roomy) holds trivial
    (roomy_sized (by decide) _ rfl) (by decide) fed
  have live : next pointer ≠ none ∧ pointer ≠ 0 := by
    cases step with
    | malloc fresh => exact ⟨by rw [Function.update_self]; exact nofun, fresh.named⟩
  obtain ⟨result, heap', last, given, ended, -⟩ :=
    @Holds.round _ _ _ _ (.free pointer) holds' (.inr live.1) nofun (by decide) nofun
  obtain rfl : result = 0 := by
    cases ended
    rfl
  refine ⟨initial, root, _, middle, heap', pointer, untouched, ground, .cons taken .nil,
    .cons taken (.cons given .nil), ?_, live.2⟩
  refine .cons trivial fun between step => .cons (.inr ?_) fun _ _ => honest_nil
  cases step with
  | malloc => exact fun none => absurd ((Function.update_self _ _ _).symm.trans none) nofun

theorem Holds.owned {cells : List (BitVec 8)} {pointer offset : Nat} (holds : Holds initial limit heap pool)
    (lease : pool pointer = some cells) (inside : offset < cells.length) :
    heapOwned heap.kernel.vm (mmapIoToPhys pointer + offset) = true := by
  obtain ⟨blocks, roots, root, leased, ground⟩ := holds
  obtain ⟨chunk, among, rfl, rfl⟩ := leased.lease lease
  rw [Chunk.cells_length] at inside
  rw [(pointer_physical leased.shows among).1]
  exact (leased.shows.inside among (Nat.le_add_right _ _) (Nat.add_lt_add_left inside _)).2.2.1

/-- What has been cleared stays so when it is cleared again. -/
theorem Holds.cleared {pointer size : Nat} (holds : Holds initial limit heap pool)
    (lease : pool pointer = some (List.replicate size 0)) :
    memset heap.kernel.vm.mem pointer 0 size = heap.kernel.vm.mem := by
  obtain ⟨blocks, roots, root, leased, ground⟩ := holds
  obtain ⟨chunk, among, rfl, cells⟩ := leased.lease lease
  have length := congrArg List.length cells
  rw [List.length_replicate, Chunk.cells_length] at length
  subst length
  unfold memset
  rw [(pointer_physical leased.shows among).1]
  funext place
  by_cases inside : physical chunk.pointer ≤ place ∧ place < physical chunk.pointer + chunk.request
  · rw [Bytes.fill_inside _ _ _ _ _ inside.1 inside.2]
    have cell : heap.kernel.vm.mem place ∈ chunk.cells heap.kernel.vm.mem :=
      List.mem_map.mpr ⟨place - physical chunk.pointer, List.mem_range.mpr (by omega), congrArg _ (by omega)⟩
    rw [← cells] at cell
    exact (List.eq_of_mem_replicate cell).symm
  · exact Bytes.fill_apart _ _ _ _ _ (by omega)

/-- A call as the rest of the kernel is modelled to make it: what liballoc does is part of
the input. -/
def Modelled (kernel : Kernel) (call : Call (BitVec 8)) (result : Nat) (after : Kernel) : Prop :=
  match call with
  | .malloc count => ∃ heapCall, Navy.kmalloc kernel count heapCall = .ok (result, after)
  | .calloc count => ∃ heapCall, Navy.kcalloc kernel count heapCall = .ok (result, after)
  | .realloc _ count => ∃ heapCall, Navy.krealloc kernel count heapCall = .ok (result, after)
  | .free pointer => ∃ heapCall, Navy.kfree kernel pointer heapCall = .ok after
  | .write _ _ _ => True

theorem malloc_modelled {kernel after : Kernel} {size pointer : Nat} (acts : Acts (fun _ => True) kernel after)
    (owned : ∀ offset, offset < size → heapOwned after.vm (mmapIoToPhys pointer + offset) = true) :
    ∃ heapCall, liballocMalloc kernel size heapCall = .ok (pointer, after) := by
  obtain ⟨actions, -, ran⟩ := acts
  refine ⟨⟨actions, pointer⟩, ?_⟩
  have inside : ((List.range size).all fun offset => heapOwned after.vm (mmapIoToPhys pointer + offset)) = true :=
    List.all_eq_true.mpr fun offset among => owned offset (List.mem_range.mp among)
  have run : HeapCall.run ⟨actions, pointer⟩ kernel = .ok after := ran
  unfold liballocMalloc
  rw [run, ok_bind]
  dsimp only
  rw [check_true _ inside, ok_bind]
  rfl

theorem answer_modelled {result : Nat} (answered : Answered initial limit heap pool call (result, heap'))
    (ran : heap.serve call = .ok (result, heap')) : Modelled heap.kernel call result heap'.kernel := by
  obtain ⟨⟨after, step, holds⟩, acts⟩ := answered
  have owned {cells : List (BitVec 8)} (lease : after result = some cells) (offset : Nat)
    (inside : offset < cells.length) :=
    holds.owned lease inside
  cases call with
  | malloc count =>
    cases step with
    | malloc fresh whole =>
      exact malloc_modelled acts fun offset inside => owned (Function.update_self _ _ _) offset (whole ▸ inside)
  | calloc count =>
    cases step with
    | calloc fresh =>
      have lease := Function.update_self result (some (List.replicate count (0 : BitVec 8))) pool
      obtain ⟨heapCall, called⟩ := malloc_modelled acts fun offset inside =>
        owned lease offset (by rwa [List.length_replicate])
      refine ⟨heapCall, ?_⟩
      unfold Navy.kcalloc
      rw [called, ok_bind]
      have cleared : memset heap'.kernel.vm.mem result 0 count = heap'.kernel.vm.mem := holds.cleared lease
      simp only [cleared]
      rfl
  | realloc pointer count =>
    apply malloc_modelled acts
    intro offset inside
    cases step with
    | drop => cases inside
    | start _ fresh whole => exact owned (Function.update_self _ _ _) offset (whole ▸ inside)
    | shrink lease _ less => exact owned (Function.update_self _ _ _) offset (by rw [List.length_take]; omega)
    | move _ _ fresh whole => exact owned (Function.update_self _ _ _) offset (by rw [List.length_append]; omega)
  | free pointer =>
    by_cases null : pointer = 0
    · subst null
      obtain rfl : heap' = { heap with lWarningCount := heap.lWarningCount + 1 } :=
        (Prod.mk.inj (Except.ok.inj ran)).2.symm
      exact ⟨⟨[], 0⟩, rfl⟩
    · obtain ⟨actions, none, run⟩ := acts
      have quiet : (actions.all fun action => !action.allocates) = true := by
        apply List.all_eq_true.mpr
        intro action among
        have allocates : action.allocates = false := none action among
        rw [allocates]
        rfl
      refine ⟨⟨actions, 0⟩, ?_⟩
      unfold Navy.kfree
      rw [if_neg null]
      rw [check_true _ quiet]
      exact run
  | write => trivial

section Runs

variable (untouched : Untouched heap) (ground : Ground initial roots root heap.kernel)
  (made : Path (Round initial limit) heap events heap')
  (honest : Honest alignment 0 Pool.empty events)
include untouched ground made honest

/-- Whatever clients call that keep to their leases, and whatever the kernel does in
between, the heap is a pool of leases: what it hands out is aligned, apart from all that is
out, keeps what was written to it and is carried along when it grows. -/
theorem heap_refines_pool : ∃ pool, Run alignment 0 Pool.empty events pool ∧ Proper alignment pool ∧
    Holds initial limit heap' pool := by
  obtain ⟨pool, run, holds⟩ := (untouched.holds ground).run made honest
  exact ⟨pool, run, run.proper proper_empty, holds⟩

omit untouched ground made honest in
theorem heap_refines_pool_gigabyte : ∃ initial heap pointer heap' pool,
    Path (Round initial 100) heap [(.malloc roomy, pointer), (.free pointer, 0)] heap' ∧
      Run alignment (0 : BitVec 8) Pool.empty [(.malloc roomy, pointer), (.free pointer, 0)] pool ∧
        Proper alignment pool ∧ Holds initial 100 heap' pool := by
  obtain ⟨initial, root, heap, middle, heap', pointer, untouched, ground, -, made, honest, -⟩ := gigabyte_session
  obtain ⟨pool, run, proper, holds⟩ := heap_refines_pool untouched ground made honest
  exact ⟨initial, heap, pointer, heap', pool, made, run, proper, holds⟩

/-- A call that its client may make comes back, unless no gap between the chunks is large
enough and the system gives no block, which may be for want of memory or because its
search misses it. -/
theorem heap_comes_back (permitted : ∀ pool, Run alignment 0 Pool.empty events pool → Permitted pool call)
    (sized : Sized limit call) (low : limit ≤ pageSize) :
    (∃ result after, heap'.serve call = .ok (result, after)) ∨
      ∃ size fault, asks call = some size ∧ heap'.serve call = .error fault ∧ Starves heap' size fault := by
  obtain ⟨pool, run, holds⟩ := (untouched.holds ground).run made honest
  have meets := serve_meets holds (permitted pool run) sized
  cases ran : heap'.serve call with
  | ok result => exact .inl ⟨result.1, result.2, rfl⟩
  | error fault =>
    rw [ran] at meets
    rcases meets with ⟨size, asked, starves⟩ | large
    · exact .inr ⟨size, fault, asked, rfl, starves⟩
    · exact absurd low (Nat.not_le_of_lt large)

omit untouched ground made honest in
theorem heap_comes_back_gigabyte : ∃ initial heap pointer middle,
    Path (Round initial 100) heap [(.malloc roomy, pointer)] middle ∧
    ∃ result after, middle.serve (.free pointer) = .ok (result, after) := by
  obtain ⟨initial, root, heap, middle, heap', pointer, untouched, ground, made, -, -⟩ := gigabyte_session
  have honest : Honest alignment (0 : BitVec 8) Pool.empty [(.malloc roomy, pointer)] :=
    .cons trivial fun _ _ => honest_nil
  have permitted (pool : Pool (BitVec 8))
    (run : Run alignment (0 : BitVec 8) Pool.empty [(.malloc roomy, pointer)] pool) : Permitted pool
      (.free pointer) := by
    cases run with
    | cons first rest =>
      cases rest
      cases first with
      | malloc => exact .inr fun none => absurd ((Function.update_self _ _ _).symm.trans none) nofun
  refine ⟨initial, heap, pointer, middle, made, ?_⟩
  rcases heap_comes_back untouched ground made honest permitted nofun (by decide) with back | ⟨size, fault, asked, -⟩
  · exact back
  · cases asked

/-- Once all has been given back, the heap is as it was at the start: no block is
left, and what is allocated and in use is counted as zero. The counters of warnings
are not set back. -/
theorem all_given_back (returned : ∀ pool, Run alignment 0 Pool.empty events pool → pool = Pool.empty) :
    Untouched heap' := by
  obtain ⟨pool, run, blocks, roots, root, leased, -⟩ := (untouched.holds ground).run made honest
  obtain rfl := returned pool run
  have empty : blocks = [] := by
    refine List.eq_nil_iff_forall_not_mem.mpr fun block inside => ?_
    obtain ⟨chunk, here⟩ := List.exists_mem_of_ne_nil _ (leased.busy block inside)
    have lease := leased.out chunk (mem_chunksOf.mpr ⟨block, inside, here⟩)
    cases lease
  subst empty
  have listed := leased.shows.listed
  exact ⟨listed.root, listed.bet.resolve_right nofun, listed.allocated, listed.inuse⟩

omit untouched ground made honest in
theorem all_given_back_gigabyte : ∃ initial heap pointer heap',
    Path (Round initial 100) heap [(.malloc roomy, pointer), (.free pointer, 0)] heap' ∧ Untouched heap' := by
  obtain ⟨initial, root, heap, middle, heap', pointer, untouched, ground, -, made, honest, named⟩ := gigabyte_session
  refine ⟨initial, heap, pointer, heap', made, all_given_back untouched ground made honest fun pool run => ?_⟩
  cases run with
  | cons first rest =>
    cases rest with
    | cons second rest =>
      cases rest
      cases first with
      | malloc fresh =>
        cases second with
        | free ends =>
          rcases ends with ⟨null, -⟩ | ⟨-, rfl⟩
          · exact absurd null named
          · rw [Function.update_idem]
            exact Function.update_eq_self_iff.mpr rfl

/-- What liballoc does in a call is one of the things the model of the rest of the kernel
allows for. -/
theorem heap_calls_modelled {result : Nat} {after : Liballoc}
    (permitted : ∀ pool, Run alignment 0 Pool.empty events pool → Permitted pool call)
    (sized : Sized limit call) (ran : heap'.serve call = .ok (result, after)) :
    Modelled heap'.kernel call result after.kernel := by
  obtain ⟨pool, run, holds⟩ := (untouched.holds ground).run made honest
  exact answer_modelled ((serve_meets holds (permitted pool run) sized).ran ran) ran

omit untouched ground made honest in
theorem heap_calls_modelled_gigabyte : ∃ kernel pointer after, Modelled kernel (.malloc roomy) pointer after := by
  obtain ⟨initial, root, heap, middle, heap', pointer, untouched, ground, made, -, -⟩ := gigabyte_session
  cases made with
  | cons first =>
    obtain ⟨sized, between, kernel, ran, -⟩ := first
    exact ⟨_, pointer, _, heap_calls_modelled untouched ground .nil honest_nil (fun _ _ => trivial) sized ran⟩

end Runs

/-- A request that a gap of some block has room for is served from the heap as it is,
wherever the walk through the blocks begins: the system is not asked for memory, and
what does not belong to the heap keeps its bytes. -/
theorem gap_served {blocks : List Block} {block : Block} {left right : List Chunk} {request : Nat}
    (shows : Shows heap blocks) (ground : Ground initial roots root heap.kernel) (asked : Asked request)
    (inside : block ∈ blocks) (split : block.chunks = left ++ right)
    (room : behind Chunk.stop block.inner left + (request + (alignment + alignInfo) + minorSize) ≤
      before Chunk.place block.stop right) :
    ∃ pointer after, heap.kmalloc request = .ok (pointer, after) ∧
      after.kernel = { heap.kernel with vm := { heap.kernel.vm with mem := after.kernel.vm.mem } } ∧
      ∀ place, heapOwned heap.kernel.vm place = false → after.kernel.vm.mem place = heap.kernel.vm.mem place := by
  have gap : block.fit (request + (alignment + alignInfo)) ≠ none := fun failed =>
    Nat.not_lt_of_le room (fit_none.mp failed left right split)
  have serves := malloc_serves ground asked shows
  unfold Serves at serves
  cases ran : heap.malloc request with
  | error fault =>
    rw [ran] at serves
    exact absurd (serves.1 block inside) gap
  | ok result =>
    rw [ran] at serves
    rcases serves with ⟨pre, twin, post, front, back, bet, after, rfl, fits, -, inserted, rfl⟩ |
      ⟨new, kernel, grown, bet, after, none, -⟩
    · refine ⟨_, _, ran, rfl, fun address foreign => ?_⟩
      have among : twin ∈ pre ++ twin :: post := by simp
      have place := (shows.stands among).gap asked.sound (fit_some fits).1 (fit_some fits).2
      exact place.foreign inserted shows among foreign
    · exact absurd (none block inside) gap

theorem start_shows (kernel : Kernel) : Shows (start kernel) [] :=
  ⟨⟨rfl, linked_nil, .inl rfl, rfl, rfl⟩, nofun, nofun, .nil, nofun⟩

/-- On the gigabyte machine the first request for a block of 64 pages gets it. -/
theorem gigabyte_expands {request : Nat} (asked : Asked request)
    (pages : pagesWanted (request + (alignment + alignInfo)) = 64) :
    ∃ initial root kernel result, Ground initial (· = root) root kernel ∧ (start kernel).malloc request = .ok result ∧
      Expanded initial (· = root) root (start kernel) [] (request + (alignment + alignInfo)) request result := by
  obtain ⟨initial, root, vm, given, lent, ground, lends⟩ := gigabyte_lends
  have serves := malloc_serves ground asked (start_shows ⟨.zero, vm⟩)
  unfold Serves at serves
  cases ran : (start ⟨.zero, vm⟩).malloc request with
  | error fault =>
    rw [ran] at serves
    have failed := serves.2
    rw [pages] at failed
    exact absurd (failed.symm.trans lends) nofun
  | ok result =>
    rw [ran] at serves
    rcases serves with ⟨pre, twin, post, -, -, -, -, split, -⟩ | expanded
    · simp at split
    · exact ⟨initial, root, ⟨.zero, vm⟩, result, ground, ran, expanded⟩

/-- A first block without a chunk has the room it came for. -/
theorem gap_served_gigabyte : ∃ heap pointer after, kmalloc heap roomy = .ok (pointer, after) ∧
    after.kernel = { heap.kernel with vm := { heap.kernel.vm with mem := after.kernel.vm.mem } } ∧
      ∀ place, heapOwned heap.kernel.vm place = false → after.kernel.vm.mem place = heap.kernel.vm.mem place := by
  have asked : Asked roomy := ⟨by decide, by decide⟩
  obtain ⟨initial, root, kernel, result, ground, -, new, kernel', grown, bet, after, -, -, grows, -⟩ :=
    gigabyte_expands asked (by decide)
  have inside : new ∈ [] ++ [new] := List.mem_singleton_self new
  have split : new.chunks = [] ++ [] := grows.extended.empty
  obtain ⟨pointer, after, called, same⟩ :=
    gap_served (grows.showing (start_shows kernel) ground asked) grows.ground asked inside split (grows.room asked).2
  exact ⟨_, pointer, after, called, same⟩

theorem Holds.byte {cells : List (BitVec 8)} {pointer offset : Nat} (holds : Holds initial limit heap pool)
    (lease : pool pointer = some cells) (inside : offset < cells.length) :
    heap.kernel.vm.mem (mmapIoToPhys pointer + offset) = cells[offset] := by
  obtain ⟨blocks, roots, root, leased, ground⟩ := holds
  obtain ⟨chunk, among, rfl, rfl⟩ := leased.lease lease
  rw [(pointer_physical leased.shows among).1]
  simp [Chunk.cells]

/-- Nobody but its client changes a lease: it stays in its place, byte for byte, through
all calls that are not about it. -/
theorem lease_kept {more : List (Call (BitVec 8) × Nat)} {last : Liballoc} {pointer offset : Nat}
    (untouched : Untouched heap) (ground : Ground initial roots root heap.kernel)
    (made : Path (Round initial limit) heap events heap') (later : Path (Round initial limit) heap' more last)
    (honest : Honest alignment 0 Pool.empty (events ++ more)) (others : ∀ event ∈ more, ¬ event.1.names pointer)
    (leased : ∀ pool, Run alignment 0 Pool.empty events pool → ∃ cells, pool pointer = some cells ∧
      offset < cells.length) :
    last.kernel.vm.mem (mmapIoToPhys pointer + offset) = heap'.kernel.vm.mem (mmapIoToPhys pointer + offset) := by
  obtain ⟨pool, run, holds⟩ := (untouched.holds ground).run made honest.take
  obtain ⟨pool', run', holds'⟩ := holds.run later (honest.drop run)
  obtain ⟨cells, lease, inside⟩ := leased pool run
  have kept := run'.frame lease others
  rw [holds.byte lease inside, holds'.byte kept inside]

/-- What leaves some room in a block of 64 pages. -/
def narrow : Nat := roomy - 4000

theorem narrow_sized {limit : Nat} (above : 64 < limit) : Sized limit (.malloc narrow) := by
  intro size same
  obtain rfl := Option.some.inj same
  exact ⟨⟨by decide, by decide⟩, Nat.lt_of_le_of_lt (by decide) above⟩

theorem narrow_pages : pagesWanted (narrow + (alignment + alignInfo)) = 64 := by decide

/-- A block of 64 pages that holds a narrow chunk has room for one of 100 bytes. -/
theorem narrow_leaves : majorSize + minorSize + (narrow + (alignment + alignInfo)) +
    (100 + (alignment + alignInfo) + minorSize) ≤ 64 * lPageSize := by decide

theorem hundred_sized : Sized 100 (.malloc 100) := by
  intro size same
  obtain rfl := Option.some.inj same
  exact ⟨⟨by decide, by decide⟩, by decide⟩

/-- The gap behind the only chunk of a block, from its sizes. -/
theorem leaves_room {block : Block} {size request pages need : Nat} (same : block.pages = pages)
    (leaves : majorSize + minorSize + size + need ≤ pages * lPageSize) :
    behind Chunk.stop block.inner [block.fresh [] size request] + need ≤ before Chunk.place block.stop [] := by
  have stop : behind Chunk.stop block.inner [block.fresh [] size request] =
    block.base + (majorSize + minorSize + size) := by
    simp only [behind, Chunk.stop, Block.fresh, Block.inner, Nat.add_assoc]
  calc behind Chunk.stop block.inner [block.fresh [] size request] + need
      = block.base + (majorSize + minorSize + size + need) := by rw [stop, Nat.add_assoc]
    _ ≤ block.base + block.pages * lPageSize := Nat.add_le_add_left (same ▸ leaves) _

/-- On the gigabyte machine two clients take a lease each, out of one block. -/
theorem gigabyte_leases : ∃ initial root heap middle pointer last other pool,
    Untouched heap ∧ Ground initial (· = root) root heap.kernel ∧
      Round initial 100 heap (.malloc narrow, pointer) middle ∧
      Round initial 100 middle (.malloc 100, other) last ∧ Holds initial 100 last pool ∧
        (∃ cells, pool other = some cells ∧ cells.length = 100) ∧ pointer ≠ other := by
  have asked : Asked narrow := ⟨by decide, by decide⟩
  obtain ⟨initial, root, kernel, ⟨pointer, middle⟩, ground, ran, block, kernel', grown, bet, after, -, known, grows,
    inserted, same⟩ := gigabyte_expands asked narrow_pages
  have untouched := start_untouched kernel
  have filled := grows.filled inserted known (start_shows kernel) ground asked asked.sound
  rw [← (Prod.mk.inj same).2] at filled
  obtain ⟨taken, pool, step, holds⟩ := @Holds.served _ _ 100 _ (.malloc narrow) _ (untouched.holds ground) trivial
    (narrow_sized (by decide)) ran
  have ⟨_, _, _, _, ground'⟩ := holds
  -- the gap behind the first chunk
  have pages : block.pages = 64 := grows.pages.trans narrow_pages
  generalize padded : narrow + (alignment + alignInfo) = size at filled
  have split : (block.insert [] (block.fresh [] size narrow) []).chunks = [block.fresh [] size narrow] ++ [] := rfl
  have room := @leaves_room block size narrow 64 _ pages (padded ▸ narrow_leaves)
  obtain ⟨other, last, ran', -⟩ :=
    gap_served filled ground' (hundred_sized 100 rfl).1 (List.mem_singleton_self _) split room
  have served : middle.serve (.malloc 100) = .ok (other, last) := by
    unfold serve
    exact ran'
  obtain ⟨taken', pool', step', holds'⟩ := @Holds.served _ _ 100 _ (.malloc 100) _ holds trivial hundred_sized served
  refine ⟨initial, root, _, _, _, last, other, pool', untouched, ground, taken, taken', holds', step'.malloced, ?_⟩
  cases step' with
  | malloc fresh =>
    rintro rfl
    obtain ⟨cells, lease, -⟩ := step.malloced
    exact absurd (fresh.unused.symm.trans lease) nofun

theorem lease_kept_gigabyte : ∃ initial heap pointer middle other last,
    Path (Round initial 100) heap [(.malloc narrow, pointer)] middle ∧
    Path (Round initial 100) middle [(.malloc 100, other), (.write other 7 1, 0), (.free other, 0)] last ∧
      last.kernel.vm.mem (mmapIoToPhys pointer + 5) = middle.kernel.vm.mem (mmapIoToPhys pointer + 5) := by
  obtain ⟨initial, root, heap, middle, pointer, second, other, pool, untouched, ground, first, next, holds,
    ⟨cells, lease, whole⟩, apart⟩ := gigabyte_leases
  have inside : 7 < cells.length := whole ▸ by decide
  obtain ⟨result, third, pool', writes, written, holds'⟩ :=
    @Holds.round _ _ _ _ (.write other 7 1) holds ⟨cells, lease, inside⟩ nofun (by decide) nofun
  obtain ⟨result', last, _, frees, freed, -⟩ :=
    @Holds.round _ _ _ _ (.free other) holds' (.inr written.written) nofun (by decide) nofun
  obtain rfl : result = 0 := by
    cases written
    rfl
  obtain rfl : result' = 0 := by
    cases freed
    rfl
  have made : Path (Round initial 100) heap [(.malloc narrow, pointer)] middle := .cons first .nil
  have later : Path (Round initial 100) middle [(.malloc 100, other), (.write other 7 1, 0), (.free other, 0)] last :=
    .cons next (.cons writes (.cons frees .nil))
  have honest : Honest alignment (0 : BitVec 8) Pool.empty
      ([(.malloc narrow, pointer)] ++ [(.malloc 100, other), (.write other 7 1, 0), (.free other, 0)]) := by
    refine .cons trivial fun _ _ => .cons trivial fun _ step => .cons ?_ fun _ step' =>
      .cons (.inr step'.written) fun _ _ => honest_nil
    obtain ⟨cells, lease, whole⟩ := step.malloced
    exact ⟨cells, lease, whole ▸ by decide⟩
  have others : ∀ event ∈ [(.malloc 100, other), (.write other 7 1, 0), (.free other, 0)],
    ¬ (event : Call (BitVec 8) × Nat).1.names pointer := by
    simp [Call.names, apart.symm]
  have leased (pool : Pool (BitVec 8)) (run : Run alignment 0 Pool.empty [(.malloc narrow, pointer)] pool) :
      ∃ cells, pool pointer = some cells ∧ 5 < cells.length := by
    cases run with
    | cons first rest =>
      cases rest
      obtain ⟨cells, lease, whole⟩ := first.malloced
      exact ⟨cells, lease, whole ▸ by decide⟩
  exact ⟨initial, heap, pointer, middle, other, last, made, later,
    lease_kept untouched ground made later honest others leased⟩

end Navy.Liballoc
