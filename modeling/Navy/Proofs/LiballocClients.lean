import Navy.Proofs.LiballocPool

/-! Clients of the heap: whatever they call in whatever order, and whatever the rest of the
kernel does in between, what they get is what a pool of leases gives. -/

namespace Navy.Liballoc
open FirstFit LinkedList Outcome Paging Paths Leases

variable {blocks : List Block} {chunk : Chunk} {heap heap' : Liballoc} {initial : Pmm} {limit size : Nat}
  {pool : Pool (BitVec 8)}

/-- What a client does to the heap. Only the entry points of `kmalloc.c` are called. -/
def serve (heap : Liballoc) : Call (BitVec 8) → Checked (Nat × Liballoc)
  | .malloc count => heap.kmalloc count
  | .calloc count => heap.kcalloc count
  | .realloc ptr count => heap.krealloc ptr count
  | .free ptr => do
    let heap ← heap.kfree ptr
    return (0, heap)
  | .write ptr offset value =>
    return (0, heap.withMem (Function.update heap.kernel.vm.mem (mmapIoToPhys ptr + offset) value))

/-- The bytes a call asks for. -/
def asks : Call (BitVec 8) → Option Nat
  | .malloc count | .calloc count | .realloc _ count => some count
  | .free _ | .write _ _ _ => none

/-- A call whose block `int` can count, and has fewer pages than some number. -/
def Sized (limit : Nat) (call : Call (BitVec 8)) : Prop :=
  ∀ size, asks call = some size → Asked size ∧ pagesWanted (size + (alignment + alignInfo)) < limit

/-- The heap lends out what a pool says, on a machine whose hooks work. -/
def Holds (initial : Pmm) (limit : Nat) (heap : Liballoc) (pool : Pool (BitVec 8)) : Prop :=
  ∃ blocks roots root, Leased limit heap blocks pool ∧ Ground initial roots root heap.kernel

/-- The system gives nothing, and it had to be asked: no gap between the chunks is large
enough. -/
def Starves (heap : Liballoc) (size : Nat) (fault : Fault) : Prop :=
  liballocAlloc heap.kernel (pagesWanted (size + (alignment + alignInfo))) = .error fault ∧
    ∃ blocks, Shows heap blocks ∧ ∀ block ∈ blocks, block.fit (size + (alignment + alignInfo)) = none

/-- Why a call may not come back. The hook that takes blocks back fails for one of as many
pages as a page has bytes. -/
def Stops (limit : Nat) (heap : Liballoc) (call : Call (BitVec 8)) (fault : Fault) : Prop :=
  (∃ size, asks call = some size ∧ Starves heap size fault) ∨ pageSize < limit

/-- What liballoc may do on its way through a call: only `free` asks for no block. -/
def Fine : Call (BitVec 8) → HeapAction → Prop
  | .free _, action => action.allocates = false
  | _, _ => True

/-- A call has come back as it should. -/
structure Answered (initial : Pmm) (limit : Nat) (heap : Liballoc) (pool : Pool (BitVec 8)) (call : Call (BitVec 8))
    (result : Nat × Liballoc) : Prop where
  step : ∃ after, Step alignment 0 pool call result.1 after ∧ Holds initial limit result.2 after
  acts : Acts (Fine call) heap.kernel result.2.kernel

theorem pointer_physical (shows : Shows heap blocks) (among : chunk ∈ chunksOf blocks) :
    mmapIoToPhys chunk.pointer = physical chunk.pointer ∧ mmapIoBase ≤ chunk.pointer ∧ chunk.pointer ≠ 0 := by
  have bounds := shows.pointer_bounds among
  simp only [minorSize, alignInfo] at bounds
  have whole : chunk.pointer < 2 ^ 64 := by omega
  have place := ioToPhys_eq (by omega : mmapIoBase ≤ chunk.pointer) whole
  rw [wrap_of_lt whole] at place
  exact ⟨place, by omega, by omega⟩

/-- What `liballoc_malloc` has come back with. -/
structure Fetched (initial : Pmm) (limit : Nat) (heap : Liballoc) (blocks : List Block)
    (pool : Pool (BitVec 8)) (size : Nat)
    (result : Nat × Liballoc) (blocks' : List Block) (new : Chunk) : Prop where
  handed : result.1 = new.pointer
  whole : new.request = size
  leased : Leased limit result.2 blocks' (Function.update pool new.pointer (some (new.cells result.2.kernel.vm.mem)))
  ground : ∃ roots root, Ground initial roots root result.2.kernel
  fresh : Fresh alignment pool new.pointer size
  acts : Acts (fun _ => True) heap.kernel result.2.kernel
  chunks : ∀ chunk, chunk ∈ chunksOf blocks' ↔ chunk = new ∨ chunk ∈ chunksOf blocks
  new : new ∉ chunksOf blocks

theorem malloc_fetches {roots : Nat → Prop} {root : Nat} (leased : Leased limit heap blocks pool)
    (ground : Ground initial roots root heap.kernel) (asked : Asked size)
    (short : pagesWanted (size + (alignment + alignInfo)) < limit) :
    Meets (heap.malloc size) (fun result =>
      ∃ blocks' new, Fetched initial limit heap blocks pool size result blocks' new) (Starves heap size) := by
  refine (malloc_meets ground asked leased.shows leased.busy).mono ?_ fun fault failed =>
    ⟨failed.2, blocks, leased.shows, failed.1⟩
  intro result served
  obtain ⟨blocks', new, malloced⟩ := served
  obtain ⟨fresh, leased'⟩ := malloced.leased leased short
  rw [malloced.asked] at fresh
  exact ⟨blocks', new, malloced.handed, malloced.asked, leased', ⟨roots, root, malloced.ground⟩, fresh, malloced.acts,
    malloced.chunks, malloced.fresh⟩

theorem kmalloc_serves (holds : Holds initial limit heap pool) (asked : Asked size)
    (short : pagesWanted (size + (alignment + alignInfo)) < limit) :
    Meets (heap.kmalloc size) (Answered initial limit heap pool (.malloc size)) (Starves heap size) := by
  obtain ⟨blocks, roots, root, leased, ground⟩ := holds
  refine (malloc_fetches leased ground asked short).mono ?_ fun _ failed => failed
  intro result served
  obtain ⟨blocks', new, fetched⟩ := served
  obtain ⟨roots', root', ground'⟩ := fetched.ground
  refine ⟨⟨_, ?_, blocks', roots', root', fetched.leased, ground'⟩, fetched.acts⟩
  rw [fetched.handed]
  exact .malloc fetched.fresh ((Chunk.cells_length _ _).trans fetched.whole)

/-- Nothing to grow is a new lease. -/
theorem start_serves (holds : Holds initial limit heap pool) (asked : Asked size)
    (short : pagesWanted (size + (alignment + alignInfo)) < limit) (some : 0 < size) :
    Meets (heap.malloc size) (Answered initial limit heap pool (.realloc 0 size))
    (Starves heap size) := by
  obtain ⟨blocks, roots, root, leased, ground⟩ := holds
  refine (malloc_fetches leased ground asked short).mono ?_ fun _ failed => failed
  intro result served
  obtain ⟨blocks', new, fetched⟩ := served
  obtain ⟨roots', root', ground'⟩ := fetched.ground
  refine ⟨⟨_, ?_, blocks', roots', root', fetched.leased, ground'⟩, fetched.acts⟩
  rw [fetched.handed]
  exact .start some fetched.fresh ((Chunk.cells_length _ _).trans fetched.whole)

theorem kcalloc_serves (holds : Holds initial limit heap pool) (asked : Asked size)
    (short : pagesWanted (size + (alignment + alignInfo)) < limit) :
    Meets (heap.kcalloc size) (Answered initial limit heap pool (.calloc size)) (Starves heap size) := by
  obtain ⟨blocks, roots, root, leased, ground⟩ := holds
  unfold kcalloc
  apply (malloc_fetches leased ground asked short).bind
  intro result _ served
  obtain ⟨blocks', new, fetched⟩ := served
  obtain ⟨pointer, between⟩ := result
  obtain ⟨roots', root', ground'⟩ := fetched.ground
  obtain rfl := fetched.handed
  obtain rfl := fetched.whole
  have here : new ∈ chunksOf blocks' := (fetched.chunks new).mpr (.inl rfl)
  obtain ⟨place, above, -⟩ := pointer_physical fetched.leased.shows here
  have outside (place : Nat) (apart : ¬ (physical new.pointer ≤ place ∧ place < physical new.pointer + new.request)) :
      memset between.kernel.vm.mem new.pointer 0 new.request place = between.kernel.vm.mem place := by
    unfold memset
    rw [pointer_physical fetched.leased.shows here |>.1]
    exact Bytes.fill_apart _ _ _ _ _ (by omega)
  have blank : new.cells (memset between.kernel.vm.mem new.pointer 0 new.request) = List.replicate new.request 0 := by
    apply List.eq_replicate_iff.mpr
    constructor
    · exact Chunk.cells_length _ _
    · intro cell among
      obtain ⟨offset, inside, rfl⟩ := List.mem_map.mp among
      have within := List.mem_range.mp inside
      unfold memset
      rw [place]
      exact Bytes.fill_inside _ _ _ _ _ (Nat.le_add_right _ _) (by omega)
  have written := fetched.leased.write here outside
  rw [Function.update_idem, blank] at written
  have checked : new.request = 0 ∨ mmapIoBase ≤ new.pointer := .inr above
  simp only [check_true _ checked, ok_bind]
  exact ⟨⟨_, .calloc fetched.fresh, blocks', roots', root', written, ground'.lent here outside fetched.leased.shows⟩,
    fetched.acts.trans ((Acts.lent here outside fetched.leased.shows).mono fun _ _ => trivial)⟩

/-- A heap that only counts a warning. -/
theorem Holds.warned (holds : Holds initial limit heap pool) (count : Nat) :
    Holds initial limit { heap with lWarningCount := count } pool := by
  obtain ⟨blocks, roots, root, leased, ground⟩ := holds
  obtain ⟨⟨listed, shown, fits, apart, given⟩, busy, out, known, pages⟩ := leased
  exact ⟨blocks, roots, root, ⟨⟨⟨listed.root, listed.links, listed.bet, listed.allocated, listed.inuse⟩, shown,
    fits, apart, given⟩, busy, out, known, pages⟩, ground⟩

theorem kfree_serves {pointer : Nat} (holds : Holds initial limit heap pool)
    (permitted : pointer = 0 ∨ pool pointer ≠ none) :
    Meets (heap.kfree pointer) (fun heap' => (∃ after, Ends pool pointer after ∧ Holds initial limit heap' after) ∧
      Acts (fun action => action.allocates = false) heap.kernel heap'.kernel) (fun _ => pageSize < limit) := by
  by_cases null : pointer = 0
  · subst null
    unfold kfree free
    rw [if_pos rfl]
    exact ⟨⟨pool, .inl ⟨rfl, rfl⟩, holds.warned _⟩, [], nofun, rfl⟩
  · have taken := permitted.resolve_left null
    obtain ⟨blocks, roots, root, leased, ground⟩ := holds
    obtain ⟨chunk, among, rfl⟩ := leased.known pointer taken
    refine (free_releases ground leased.shows leased.busy among).mono ?_ ?_
    · intro heap' released
      obtain ⟨blocks', released⟩ := released
      exact ⟨⟨_, .inr ⟨taken, rfl⟩, blocks', roots, root, released.leased leased among, released.ground⟩, released.acts⟩
    · intro fault large
      obtain ⟨block, inside, -, many⟩ := large
      exact Nat.lt_of_le_of_lt many (leased.pages block inside)

/-- A lease that becomes shorter stays where it is. -/
theorem shrink_serves {roots : Nat → Prop} {root : Nat} (leased : Leased limit heap blocks pool)
    (ground : Ground initial roots root heap.kernel) (among : chunk ∈ chunksOf blocks) (positive : 0 < size)
    (less : size ≤ chunk.request) :
    Answered initial limit heap pool (.realloc chunk.pointer size)
      (chunk.pointer, heap.withMem (setMember heap.kernel.vm.mem chunk.place MinorField.reqSize size)) := by
  have lease := leased.out chunk among
  have length := Chunk.cells_length heap.kernel.vm.mem chunk
  obtain ⟨block, inside, here⟩ := mem_chunksOf.mp among
  obtain ⟨pre, post, rfl⟩ := List.append_of_mem inside
  obtain ⟨left, right, split⟩ := List.append_of_mem here
  have fits := leased.shows.fits block inside
  have bytes (address : Nat) (above : mmapIoBase ≤ address)
    (outside : ∀ other ∈ pre ++ block :: post, ¬ other.Header address) :
      setMember heap.kernel.vm.mem chunk.place MinorField.reqSize size (physical address) = heap.kernel.vm.mem
        (physical address) :=
    fits.chunk_byte here _ above (outside block inside)
  have length := Chunk.cells_length heap.kernel.vm.mem chunk
  have kept {other : Chunk} (member : other ∈ chunksOf (pre ++ block :: post)) :
      other.cells (setMember heap.kernel.vm.mem chunk.place MinorField.reqSize size) =
        other.cells heap.kernel.vm.mem := by
    apply Chunk.cells_congr
    intro place low high
    have inside := leased.shows.inside member low high
    rw [← physical_add place]
    exact bytes _ (by omega) inside.2.2.2
  have cut : (chunk.resized size).cells (setMember heap.kernel.vm.mem chunk.place MinorField.reqSize size) =
      (chunk.cells heap.kernel.vm.mem).take size := by
    have shorter : (chunk.resized size).cells (setMember heap.kernel.vm.mem chunk.place MinorField.reqSize size) =
        (chunk.cells (setMember heap.kernel.vm.mem chunk.place MinorField.reqSize size)).take size := by
      simp only [Chunk.cells, Chunk.resized, ← List.map_take, List.take_range, Nat.min_eq_left less]
      rfl
    rw [shorter, kept among]
  refine ⟨⟨_, .shrink lease positive (by omega), _, roots, root, ⟨leased.shows.resized split less, ?_, ?_, ?_, ?_⟩,
    ground.headers leased.shows bytes⟩, (Acts.write fun _ => leased.shows.foreign_bytes bytes).mono fun _ _ => trivial⟩
  · intro other member
    rcases List.mem_append.mp member with front | back
    · exact leased.busy other (by simp [front])
    · rcases List.mem_cons.mp back with rfl | back
      · simp [Block.resize]
      · exact leased.busy other (by simp [back])
  · intro other member
    rcases (chunksOf_resize split leased.shows).mp member with rfl | ⟨member, different⟩
    · exact (Function.update_self _ _ _).trans (congrArg some cut.symm)
    · have apart : other.pointer ≠ chunk.pointer := fun same => different (leased.shows.pointer_named member among same)
      rw [Function.update_of_ne apart, withMem_mem, kept member]
      exact leased.out other member
  · intro pointer taken
    by_cases same : pointer = chunk.pointer
    · exact ⟨chunk.resized size, (chunksOf_resize split leased.shows).mpr (.inl rfl), same.symm⟩
    · rw [Function.update_of_ne same] at taken
      obtain ⟨other, member, rfl⟩ := leased.known pointer taken
      exact ⟨other, (chunksOf_resize split leased.shows).mpr
        (.inr ⟨member, fun equal => same (congrArg Chunk.pointer equal)⟩), rfl⟩
  · intro other member
    rcases List.mem_append.mp member with front | back
    · exact leased.pages other (by simp [front])
    · rcases List.mem_cons.mp back with rfl | back
      · exact leased.pages block inside
      · exact leased.pages other (by simp [back])

/-- What lies in a place that something shorter was copied to. -/
theorem copied_cells {mem : Bytes} {target source : Nat} (first count : Nat)
    (clear : source + first ≤ target ∨ target + first ≤ source) :
    ((List.range (first + count)).map fun offset => mem.copy target source first (target + offset)) =
      ((List.range first).map fun offset => mem (source + offset)) ++ (List.range count).map fun offset => mem
      (target + (first + offset)) := by
  rw [List.range_add, List.map_append, List.map_map]
  apply congrArg₂ List.append
  · apply List.map_congr_left
    intro offset inside
    exact Bytes.copy_inside _ _ _ _ _ (List.mem_range.mp inside) (clear.imp_right (Nat.le_trans (Nat.le_add_right _ _)))
  · apply List.map_congr_left
    intro offset _
    exact Bytes.copy_apart _ _ _ _ _ (.inr (Nat.add_le_add_left (Nat.le_add_right _ _) _))

/-- `liballoc_realloc` once the new place is there. -/
theorem carry_eq {ptr p realSize : Nat} (above : mmapIoBase ≤ ptr) :
    (do
      check (realSize = 0 ∨ mmapIoBase ≤ ptr) .outOfBounds
      let heap := heap.withMem (liballocMemcpy heap.kernel.vm.mem (mmapIoToPhys ptr) (mmapIoToPhys p) realSize)
      let heap ← heap.free p
      return (ptr, heap)) = (do
        let heap ← (heap.withMem (liballocMemcpy heap.kernel.vm.mem (mmapIoToPhys ptr)
          (mmapIoToPhys p) realSize)).free p
        return (ptr, heap) : Checked (Nat × Liballoc)) := by
  rw [check_true _ (.inr above), ok_bind]

/-- A lease that becomes longer takes what it held along. -/
theorem moveBlock_serves {roots : Nat → Prop} {root : Nat} (leased : Leased limit heap blocks pool)
    (ground : Ground initial roots root heap.kernel) (among : chunk ∈ chunksOf blocks) (asked : Asked size)
    (short : pagesWanted (size + (alignment + alignInfo)) < limit) (more : chunk.request < size) :
    Meets (heap.moveBlock chunk.pointer size chunk.request)
      (Answered initial limit heap pool (.realloc chunk.pointer size))
      (fun fault => Starves heap size fault ∨ pageSize < limit) := by
  unfold moveBlock
  apply ((malloc_fetches leased ground asked short).mono (fun _ served => served) fun _ => .inl).bind
  intro result _ served
  obtain ⟨blocks', new, fetched⟩ := served
  obtain ⟨pointer, between⟩ := result
  obtain ⟨roots', root', ground'⟩ := fetched.ground
  obtain rfl := fetched.handed
  have whole := fetched.whole
  have shows := fetched.leased.shows
  have here : new ∈ chunksOf blocks' := (fetched.chunks new).mpr (.inl rfl)
  have there : chunk ∈ chunksOf blocks' := (fetched.chunks chunk).mpr (.inr among)
  have different : chunk ≠ new := by
    rintro rfl
    exact fetched.new among
  have apart : chunk.pointer ≠ new.pointer := fun same => different (shows.pointer_named there here same)
  obtain ⟨place, above, -⟩ := pointer_physical shows here
  obtain ⟨place', -, named⟩ := pointer_physical shows there
  simp only []
  rw [carry_eq above, place, place']
  have clear : physical chunk.pointer + chunk.request ≤ physical new.pointer ∨
    physical new.pointer + chunk.request ≤ physical chunk.pointer := by
    have bounds := shows.pointer_bounds here
    have bounds' := shows.pointer_bounds there
    unfold physical
    rcases shows.chunks_apart there here with same | front | back
    · exact absurd same different
    · omega
    · omega
  rw [liballocMemcpy_eq _ clear]
  have outside (place : Nat) (apart : ¬ (physical new.pointer ≤ place ∧ place < physical new.pointer + new.request)) :
      between.kernel.vm.mem.copy (physical new.pointer) (physical chunk.pointer) chunk.request place =
        between.kernel.vm.mem place :=
    Bytes.copy_apart _ _ _ _ _ (by omega)
  have lease : pool chunk.pointer = some (chunk.cells between.kernel.vm.mem) := by
    have kept := fetched.leased.out chunk there
    rwa [Function.update_of_ne apart] at kept
  have carried : new.cells (between.kernel.vm.mem.copy (physical new.pointer) (physical chunk.pointer) chunk.request) =
      chunk.cells between.kernel.vm.mem ++ (List.range (size - chunk.request)).map fun offset =>
        between.kernel.vm.mem (physical new.pointer + (chunk.request + offset)) := by
    have sum : new.request = chunk.request + (size - chunk.request) := by omega
    unfold Chunk.cells
    rw [sum]
    exact copied_cells _ _ clear
  have written := fetched.leased.write here outside
  rw [Function.update_idem, carried] at written
  have ground'' := ground'.lent here outside shows
  apply ((free_releases ground'' written.shows written.busy there).mono
    (fun _ released => released) fun fault large => ?_).bind
  · intro last _ released
    obtain ⟨blocks'', released⟩ := released
    have ended := released.leased written there
    rw [Function.update_comm apart.symm] at ended
    show Answered initial limit heap pool (.realloc chunk.pointer size) (new.pointer, last)
    refine ⟨⟨_, .move lease ?_ fetched.fresh ?_, blocks'', roots', root', ended, released.ground⟩, ?_⟩
    · rw [Chunk.cells_length]
      exact more
    · rw [Chunk.cells_length, List.length_map, List.length_range]
      omega
    · have carrying := (Acts.lent here outside shows).trans released.acts
      exact fetched.acts.trans (carrying.mono fun _ _ => trivial)
  · obtain ⟨block, inside, -, many⟩ := large
    exact .inr (Nat.lt_of_le_of_lt many (written.pages block inside))

theorem krealloc_serves {pointer : Nat} (holds : Holds initial limit heap pool)
    (permitted : pointer = 0 ∨ pool pointer ≠ none) (asked : Asked size)
    (short : pagesWanted (size + (alignment + alignInfo)) < limit) :
    Meets (heap.krealloc pointer size) (Answered initial limit heap pool (.realloc pointer size))
      (fun fault => Starves heap size fault ∨ pageSize < limit) := by
  unfold krealloc
  by_cases zero : size = 0
  · subst zero
    unfold realloc
    rw [if_pos rfl]
    apply ((kfree_serves holds permitted).mono (fun _ freed => freed) fun _ => .inr).bind
    intro heap' _ freed
    obtain ⟨⟨after, ends, holds'⟩, acts⟩ := freed
    exact ⟨⟨after, .drop ends, holds'⟩, acts.mono fun _ _ => trivial⟩
  · have positive : 0 < size := Nat.pos_of_ne_zero zero
    by_cases null : pointer = 0
    · subst null
      unfold realloc
      rw [if_neg zero, if_pos rfl]
      exact (start_serves holds asked short positive).mono (fun _ served => served) fun _ => .inl
    · obtain ⟨blocks, roots, root, leased, ground⟩ := holds
      obtain ⟨chunk, among, rfl⟩ := leased.known pointer (permitted.resolve_left null)
      rw [realloc_eq leased.shows among zero]
      split
      next less => exact shrink_serves leased ground among positive less
      next more => exact moveBlock_serves leased ground among asked short (Nat.lt_of_not_le more)

theorem write_serves {pointer offset : Nat} {value : BitVec 8} {cells : List (BitVec 8)}
    (holds : Holds initial limit heap pool) (lease : pool pointer = some cells) (inside : offset < cells.length) :
    Answered initial limit heap pool (.write pointer offset value)
      (0, heap.withMem (Function.update heap.kernel.vm.mem (mmapIoToPhys pointer + offset) value)) := by
  obtain ⟨blocks, roots, root, leased, ground⟩ := holds
  obtain ⟨chunk, among, rfl, rfl⟩ := leased.lease lease
  rw [Chunk.cells_length] at inside
  rw [(pointer_physical leased.shows among).1]
  have outside (place : Nat) (apart : ¬ (physical chunk.pointer ≤ place ∧
    place < physical chunk.pointer + chunk.request)) :
      Function.update heap.kernel.vm.mem (physical chunk.pointer + offset) value place = heap.kernel.vm.mem place :=
    Function.update_of_ne (by omega) _ _
  have entered : chunk.cells (Function.update heap.kernel.vm.mem (physical chunk.pointer + offset) value) =
      (chunk.cells heap.kernel.vm.mem).set offset value := by
    apply List.ext_getElem
    · rw [List.length_set, Chunk.cells_length, Chunk.cells_length]
    · intro index _ _
      simp only [Chunk.cells, List.getElem_set, List.getElem_map, List.getElem_range, Function.update_apply]
      by_cases here : offset = index
      · rw [if_pos here, if_pos (by rw [here])]
      · rw [if_neg here, if_neg fun same => here (Nat.add_left_cancel same).symm]
  have written := leased.write among outside
  rw [entered] at written
  refine ⟨⟨_, .write lease ?_, blocks, roots, root, written, ground.lent among outside leased.shows⟩,
    (Acts.lent among outside leased.shows).mono fun _ _ => trivial⟩
  rw [Chunk.cells_length]
  exact inside

/-- A call that may be made comes back as it should, unless the system has no memory left. -/
theorem serve_meets {call : Call (BitVec 8)} (holds : Holds initial limit heap pool)
    (permitted : Permitted pool call) (sized : Sized limit call) :
    Meets (heap.serve call) (Answered initial limit heap pool call) (Stops limit heap call) := by
  cases call with
  | malloc count =>
    obtain ⟨asked, short⟩ := sized count rfl
    exact (kmalloc_serves holds asked short).mono (fun _ served => served) fun _ failed => .inl ⟨count, rfl, failed⟩
  | calloc count =>
    obtain ⟨asked, short⟩ := sized count rfl
    exact (kcalloc_serves holds asked short).mono (fun _ served => served) fun _ failed => .inl ⟨count, rfl, failed⟩
  | realloc pointer count =>
    obtain ⟨asked, short⟩ := sized count rfl
    exact (krealloc_serves holds permitted asked short).mono (fun _ served => served) fun _ failed =>
      failed.imp_left fun starved => ⟨count, rfl, starved⟩
  | free pointer =>
    apply ((kfree_serves holds permitted).mono (fun _ freed => freed) fun _ => .inr).bind
    intro heap' _ freed
    obtain ⟨⟨after, ends, holds'⟩, acts⟩ := freed
    exact ⟨⟨after, .free ends, holds'⟩, acts⟩
  | write pointer offset value =>
    obtain ⟨cells, lease, inside⟩ := permitted
    exact write_serves holds lease inside

/-- What the rest of the kernel may do to the machine: it leaves the heap its blocks and
what is in them. -/
structure Foreign (initial : Pmm) (kernel after : Kernel) : Prop where
  ground : ∃ roots root, Ground initial roots root after
  keeps : Keeps kernel after
  bytes : ∀ place, heapOwned kernel.vm place = true → after.vm.mem place = kernel.vm.mem place

/-- An operation of the kernel that takes memory and writes to none that is held. -/
theorem Ground.foreign {roots : Nat → Prop} {root : Nat} {kind : Owner → Prop} {kernel after : Kernel}
    (ground : Ground initial roots root kernel) (sound : Sane initial roots root after.vm)
    (homed : Homed roots after) (grows : Grows roots kernel.vm after.vm)
    (enters : Enters kind kernel.vm after.vm) :
    Foreign initial kernel after := by
  obtain ⟨added, entered⟩ := enters
  refine ⟨⟨roots, root, sound, homed⟩, .of_entries fun range member => ?_, fun place owned => ?_⟩
  · rw [entered.owners]
    exact List.mem_append_right _ member
  · have reserved := ground.sane.heap_reserved owned
    exact grows.bytes place reserved.held reserved.apart

/-- Mapping pages into the space of a process leaves the heap alone. -/
theorem map_foreign {roots : Nat → Prop} {root space : Nat} {kernel : Kernel} {virt phys : Range}
    {isUser : Bool} {vm : Vm} (ground : Ground initial roots root kernel) (isSpace : roots space)
    (other : space ≠ root)
    (half : ∀ index, index < virt.length / 4096 → UserHalf (wrap (index * pageSize + alignDown virt.base pageSize)))
    (ran : vmmMapRange kernel.vm (mmapPhysToIo space) virt phys isUser = .ok vm) :
    Foreign initial kernel { kernel with vm } := by
  obtain ⟨took, grows⟩ := ground.sane.mapUser isSpace other half ran
  exact ground.foreign took.sound (ground.homed.congr rfl took.moves.kernel) grows took.enters

theorem Holds.foreign {after : Kernel} (holds : Holds initial limit heap pool)
    (foreign : Foreign initial heap.kernel after) :
    Holds initial limit { heap with kernel := after } pool := by
  obtain ⟨blocks, roots, root, leased, ground⟩ := holds
  obtain ⟨roots', root', ground'⟩ := foreign.ground
  have shows := leased.shows
  have own (address : Nat) (above : mmapIoBase ≤ address) (own : Own blocks address) :
      after.vm.mem (physical address) = heap.kernel.vm.mem (physical address) := by
    apply foreign.bytes
    rcases own with ⟨block, inside, header⟩ | ⟨chunk, among, rfl⟩
    · exact shows.header_owned inside header
    · have bounds := shows.pointer_bounds among
      simp only [minorSize, alignInfo] at bounds ⊢
      exact (shows.body among (by simp only [minorSize]; omega) (by omega)).2.1
  refine ⟨blocks, roots', root', ⟨shows.kernel foreign.keeps own, leased.busy, ?_, leased.known, leased.pages⟩, ground'⟩
  intro chunk among
  rw [leased.out chunk among]
  apply congrArg
  exact (Chunk.cells_congr fun place low high => foreign.bytes place (shows.inside among low high).2.2.1).symm

/-- A call with its result, and what the kernel does until the next one. -/
def Round (initial : Pmm) (limit : Nat) (heap : Liballoc) (event : Call (BitVec 8) × Nat) (after : Liballoc) : Prop :=
  Sized limit event.1 ∧ ∃ between kernel, heap.serve event.1 = .ok (event.2, between) ∧
    Foreign initial between.kernel kernel ∧
    after = { between with kernel }

theorem round_answers {event : Call (BitVec 8) × Nat} (holds : Holds initial limit heap pool)
    (permitted : Permitted pool event.1) (round : Round initial limit heap event heap') :
    ∃ after, Step alignment 0 pool event.1 event.2 after ∧ Holds initial limit heap' after := by
  obtain ⟨sized, between, kernel, ran, foreign, rfl⟩ := round
  obtain ⟨⟨after, step, holds'⟩, -⟩ := (serve_meets holds permitted sized).ran ran
  exact ⟨after, step, holds'.foreign foreign⟩

/-- The statics as they are when the kernel starts. -/
structure Untouched (heap : Liballoc) : Prop where
  root : heap.lMemRoot = 0
  bet : heap.lBestBet = 0
  allocated : heap.lAllocated = 0
  inuse : heap.lInuse = 0

theorem Untouched.holds {roots : Nat → Prop} {root : Nat} (untouched : Untouched heap)
    (ground : Ground initial roots root heap.kernel) : Holds initial limit heap Pool.empty :=
  ⟨[], roots, root, ⟨⟨⟨untouched.root, linked_nil, .inl untouched.bet, untouched.allocated, untouched.inuse⟩, nofun,
    nofun, .nil, nofun⟩, nofun, nofun, nofun, nofun⟩, ground⟩

end Navy.Liballoc
