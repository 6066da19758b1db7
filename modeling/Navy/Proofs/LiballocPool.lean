import Navy.Library.Leases
import Navy.Proofs.LiballocRealloc

/-! The heap as its clients have it: the chunks that are out are leases, and each call
does to them what it should. -/

namespace Navy.Liballoc
open FirstFit LinkedList Outcome Paging Leases

variable {mem after : Bytes} {blocks blocks' : List Block} {chunk new gone : Chunk} {heap heap' : Liballoc}
  {initial : Pmm}
  {roots : Nat → Prop} {root pointer request limit size : Nat} {pool : Pool (BitVec 8)}

/-- The bytes a client has in a chunk. -/
def Chunk.cells (mem : Bytes) (chunk : Chunk) : List (BitVec 8) :=
  (List.range chunk.request).map fun offset => mem (physical chunk.pointer + offset)

theorem Chunk.cells_length (mem : Bytes) (chunk : Chunk) : (chunk.cells mem).length = chunk.request := by
  simp [Chunk.cells]

theorem Chunk.cells_congr (same : ∀ place, physical chunk.pointer ≤ place →
    place < physical chunk.pointer + chunk.request → after place = mem place) :
    chunk.cells after = chunk.cells mem := by
  apply List.map_congr_left
  intro offset inside
  have := List.mem_range.mp inside
  exact same _ (Nat.le_add_right _ _) (by omega)

/-- The chunks that are out are the leases of a pool, and no block has too many pages. -/
structure Leased (limit : Nat) (heap : Liballoc) (blocks : List Block) (pool : Pool (BitVec 8)) : Prop where
  shows : Shows heap blocks
  busy : Busy blocks
  out : ∀ chunk ∈ chunksOf blocks, pool chunk.pointer = some (chunk.cells heap.kernel.vm.mem)
  known : ∀ pointer, pool pointer ≠ none → ∃ chunk ∈ chunksOf blocks, chunk.pointer = pointer
  pages : ∀ block ∈ blocks, block.pages < limit

/-- A byte that is lent lies behind the header of its chunk, in the heap, and in no header. -/
theorem Shows.inside (shows : Shows heap blocks) (among : chunk ∈ chunksOf blocks) {place : Nat}
    (low : physical chunk.pointer ≤ place) (high : place < physical chunk.pointer + chunk.request) :
    chunk.place ≤ place + mmapIoBase ∧ place + mmapIoBase < chunk.stop ∧ heapOwned heap.kernel.vm place = true ∧
      ∀ block ∈ blocks, ¬ block.Header (place + mmapIoBase) := by
  have bounds := shows.pointer_bounds among
  simp only [minorSize, alignInfo] at bounds
  unfold physical at low high
  have behind : chunk.place + minorSize ≤ place + mmapIoBase := by
    simp only [minorSize]
    omega
  have body := shows.body among behind (by omega)
  rw [physical_add] at body
  exact ⟨by omega, by omega, body.2⟩

theorem Leased.lease {cells : List (BitVec 8)} (leased : Leased limit heap blocks pool)
    (lease : pool pointer = some cells) :
    ∃ chunk ∈ chunksOf blocks, chunk.pointer = pointer ∧ cells = chunk.cells heap.kernel.vm.mem := by
  obtain ⟨chunk, among, rfl⟩ := leased.known pointer (by rw [lease]; exact nofun)
  exact ⟨chunk, among, rfl, Option.some.inj (lease.symm.trans (leased.out chunk among))⟩

theorem Malloced.leased (leased : Leased limit heap blocks pool)
    (malloced : Malloced initial roots root heap blocks request pointer heap' blocks' new)
    (short : pagesWanted (request + (alignment + alignInfo)) < limit) :
    Fresh alignment pool new.pointer new.request ∧
      Leased limit heap' blocks' (Function.update pool new.pointer (some (new.cells heap'.kernel.vm.mem))) := by
  have shows := malloced.shows
  have here : new ∈ chunksOf blocks' := (malloced.chunks new).mpr (.inl rfl)
  have old {chunk : Chunk} (among : chunk ∈ chunksOf blocks) : chunk ∈ chunksOf blocks' :=
    (malloced.chunks chunk).mpr (.inr among)
  have different {chunk : Chunk} (among : chunk ∈ chunksOf blocks) : chunk ≠ new := by
    rintro rfl
    exact malloced.fresh among
  have other {chunk : Chunk} (among : chunk ∈ chunksOf blocks) : chunk.pointer ≠ new.pointer := fun same =>
    different among (shows.pointer_named (old among) here same)
  have kept {chunk : Chunk} (among : chunk ∈ chunksOf blocks) : chunk.cells heap'.kernel.vm.mem =
    chunk.cells heap.kernel.vm.mem := by
    apply Chunk.cells_congr
    intro place low high
    obtain ⟨begins, ends, owned, outside⟩ := leased.shows.inside among low high
    apply malloced.bytes place owned outside
    rcases shows.chunks_apart (old among) here with same | front | back
    · exact absurd same (different among)
    · omega
    · omega
  have bounds := shows.pointer_bounds here
  refine ⟨⟨?_, Nat.dvd_of_mod_eq_zero bounds.2.2.2.1, ?_, ?_⟩, shows, malloced.busy, ?_, ?_, ?_⟩
  · simp only [minorSize] at bounds
    omega
  · refine Decidable.byContradiction fun taken => ?_
    obtain ⟨chunk, among, same⟩ := leased.known new.pointer taken
    exact other among same
  · intro place cells lease
    obtain ⟨chunk, among, rfl, rfl⟩ := leased.lease lease
    have bounds' := shows.pointer_bounds (old among)
    rw [Chunk.cells_length]
    rcases shows.chunks_apart (old among) here with same | front | back
    · exact absurd same (different among)
    · omega
    · omega
  · intro chunk among
    rcases (malloced.chunks chunk).mp among with rfl | among
    · exact Function.update_self _ _ _
    · rw [Function.update_of_ne (other among), kept among]
      exact leased.out chunk among
  · intro place taken
    by_cases same : place = new.pointer
    · exact ⟨new, here, same.symm⟩
    · rw [Function.update_of_ne same] at taken
      obtain ⟨chunk, among, rfl⟩ := leased.known place taken
      exact ⟨chunk, old among, rfl⟩
  · intro block among
    rcases malloced.pages block among with ⟨twin, inside, same⟩ | same
    · exact same ▸ leased.pages twin inside
    · exact same ▸ short

theorem Released.leased (leased : Leased limit heap blocks pool)
    (released : Released initial roots root heap blocks gone heap' blocks') (among : gone ∈ chunksOf blocks) :
    Leased limit heap' blocks' (Function.update pool gone.pointer none) := by
  have old {chunk : Chunk} (among : chunk ∈ chunksOf blocks') : chunk ∈ chunksOf blocks :=
    ((released.chunks chunk).mp among).1
  refine ⟨released.shows, released.busy, ?_, ?_, ?_⟩
  · intro chunk left
    have different := ((released.chunks chunk).mp left).2
    have apart : chunk.pointer ≠ gone.pointer :=
      fun same => different (leased.shows.pointer_named (old left) among same)
    have kept : chunk.cells heap'.kernel.vm.mem = chunk.cells heap.kernel.vm.mem := by
      apply Chunk.cells_congr
      intro place low high
      have inside := leased.shows.inside (old left) low high
      have same := released.bytes (place + mmapIoBase) (by omega) inside.2.2.2
      rwa [physical_add] at same
    rw [Function.update_of_ne apart, kept]
    exact leased.out chunk (old left)
  · intro place taken
    have apart : place ≠ gone.pointer := by
      rintro rfl
      exact taken (Function.update_self _ _ _)
    rw [Function.update_of_ne apart] at taken
    obtain ⟨chunk, inside, rfl⟩ := leased.known place taken
    exact ⟨chunk, (released.chunks chunk).mpr ⟨inside, fun same => apart (congrArg Chunk.pointer same)⟩, rfl⟩
  · intro block inside
    obtain ⟨twin, there, -, same, -⟩ := released.twins block inside
    exact same ▸ leased.pages twin there

section Writing

variable (among : chunk ∈ chunksOf blocks)
  (same : ∀ place, ¬ (physical chunk.pointer ≤ place ∧ place < physical chunk.pointer + chunk.request) →
    after place = heap.kernel.vm.mem place)
include among same

/-- What is written to a lease is in it, and in no other. -/
theorem Leased.write (leased : Leased limit heap blocks pool) :
    Leased limit (heap.withMem after) blocks (Function.update pool chunk.pointer (some (chunk.cells after))) := by
  have shows := leased.shows
  refine ⟨shows.write fun place outside => same place fun inside => outside ⟨chunk, among, inside⟩, leased.busy, ?_,
    ?_, leased.pages⟩
  · intro other inside
    by_cases here : other = chunk
    · subst here
      exact Function.update_self _ _ _
    · have apart : other.pointer ≠ chunk.pointer := fun equal => here (shows.pointer_named inside among equal)
      have kept : other.cells after = other.cells heap.kernel.vm.mem := by
        apply Chunk.cells_congr
        intro place low high
        apply same
        rintro ⟨low', high'⟩
        have first := shows.inside inside low high
        have last := shows.inside among low' high'
        rcases shows.chunks_apart inside among with equal | front | back
        · exact here equal
        · omega
        · omega
      rw [Function.update_of_ne apart, withMem_mem, kept]
      exact leased.out other inside
  · intro place taken
    by_cases here : place = chunk.pointer
    · exact ⟨chunk, among, here.symm⟩
    · rw [Function.update_of_ne here] at taken
      exact leased.known place taken

theorem Shows.lent_bytes (shows : Shows heap blocks) {place : Nat} (foreign : heapOwned heap.kernel.vm place = false) :
    after place = heap.kernel.vm.mem place := by
  apply same
  rintro ⟨low, high⟩
  have owned := (shows.inside among low high).2.2.1
  exact absurd (owned.symm.trans foreign) nofun

theorem Ground.lent (ground : Ground initial roots root heap.kernel) (shows : Shows heap blocks) :
    Ground initial roots root (heap.withMem after).kernel :=
  ground.write fun _ => shows.lent_bytes among same

theorem Acts.lent (shows : Shows heap blocks) :
    Acts (fun action => action.allocates = false) heap.kernel (heap.withMem after).kernel :=
  .write fun _ => shows.lent_bytes among same

end Writing

end Navy.Liballoc
