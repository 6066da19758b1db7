import Navy.Proofs.LiballocFree

/-! What the calls of liballoc do to the chunks that are out, whichever blocks they lie in. -/

namespace Navy.Liballoc
open FirstFit LinkedList Outcome Paging

variable {mem after : Bytes} {block other : Block} {blocks blocks' pre post : List Block} {left right : List Chunk}
  {chunk chunk' new gone : Chunk} {heap heap' : Liballoc} {initial : Pmm} {roots : Nat → Prop}
  {root pointer request : Nat}

/-- The chunks of all blocks. -/
def chunksOf (blocks : List Block) : List Chunk := blocks.flatMap Block.chunks

/-- Blocks are there for their chunks. -/
def Busy (blocks : List Block) : Prop := ∀ block ∈ blocks, block.chunks ≠ []

theorem mem_chunksOf : chunk ∈ chunksOf blocks ↔ ∃ block ∈ blocks, chunk ∈ block.chunks := List.mem_flatMap

theorem chunksOf_append : chunksOf (pre ++ post) = chunksOf pre ++ chunksOf post := List.flatMap_append

theorem chunksOf_cons : chunksOf (block :: post) = block.chunks ++ chunksOf post := List.flatMap_cons

namespace Shows

variable (shows : Shows heap blocks)
include shows

/-- What lies in a chunk behind its header is in no header at all. -/
theorem body (among : chunk ∈ chunksOf blocks) {address : Nat} (low : chunk.place + minorSize ≤ address)
    (high : address < chunk.stop) :
    mmapIoBase ≤ address ∧ heapOwned heap.kernel.vm (physical address) = true ∧ ∀ other ∈ blocks,
      ¬ other.Header address := by
  obtain ⟨block, inside, here⟩ := mem_chunksOf.mp among
  have fits := shows.fits block inside
  have bounds := fits.chunk_bounds here
  have bottom := fits.low
  simp only [minorSize] at low
  refine ⟨by omega, (shows.given block inside).owned address (by omega) (by omega), fun other inside' header => ?_⟩
  by_cases same : other = block
  · subst same
    exact fits.body here low high header
  · have apart : other.Apart block := shows.apart.forall inside' inside same
    have fits' := shows.fits other inside'
    have pages := fits'.pages
    have stop : other.stop = other.base + other.pages * 4096 := rfl
    simp only [lPageSize] at pages
    unfold Block.Apart at apart
    rcases header with ⟨first, last⟩ | ⟨chunk', here', first, last⟩
    · unfold Block.inner at last
      simp only [majorSize] at last
      omega
    · have bounds' := fits'.chunk_bounds here'
      simp only [minorSize] at last
      omega

theorem chunks_apart (one : chunk ∈ chunksOf blocks) (two : chunk' ∈ chunksOf blocks) :
    chunk = chunk' ∨ chunk.stop ≤ chunk'.place ∨ chunk'.stop ≤ chunk.place := by
  obtain ⟨block, inside, here⟩ := mem_chunksOf.mp one
  obtain ⟨other, inside', here'⟩ := mem_chunksOf.mp two
  have bounds := (shows.fits block inside).chunk_bounds here
  have bounds' := (shows.fits other inside').chunk_bounds here'
  by_cases same : block = other
  · subst same
    exact (shows.fits block inside).packed.apart here here'
  · have apart : block.Apart other := shows.apart.forall inside inside' same
    unfold Block.Apart at apart
    omega

theorem pointer_bounds (among : chunk ∈ chunksOf blocks) : chunk.place + minorSize + alignInfo ≤ chunk.pointer ∧
    chunk.pointer + chunk.request ≤ chunk.stop ∧ chunk.pointer < chunk.stop ∧ chunk.pointer % 16 = 0 ∧
      mmapIoBase ≤ chunk.place ∧ chunk.stop ≤ 2 ^ 64 := by
  obtain ⟨block, inside, here⟩ := mem_chunksOf.mp among
  have fits := shows.fits block inside
  have bounds := fits.chunk_bounds here
  have low := fits.low
  have high := fits.high
  have room := fits.room chunk here
  have pointer := chunk.pointer_bounds
  have inner := Chunk.pointer_room room
  have stop : chunk.stop = chunk.place + 40 + chunk.size := rfl
  simp only [minorSize, alignInfo, alignment] at room ⊢
  omega

theorem pointer_named (one : chunk ∈ chunksOf blocks) (two : chunk' ∈ chunksOf blocks)
    (same : chunk.pointer = chunk'.pointer) : chunk = chunk' := by
  have bounds := shows.pointer_bounds one
  have bounds' := shows.pointer_bounds two
  rcases shows.chunks_apart one two with equal | front | back
  · exact equal
  · simp only [minorSize, alignInfo] at bounds bounds'
    omega
  · simp only [minorSize, alignInfo] at bounds bounds'
    omega

end Shows

/-- What `liballoc_malloc` leaves behind. -/
structure Malloced (initial : Pmm) (roots : Nat → Prop) (root : Nat) (heap : Liballoc) (blocks : List Block)
    (request : Nat) (pointer : Nat) (heap' : Liballoc) (blocks' : List Block) (new : Chunk) : Prop where
  shows : Shows heap' blocks'
  busy : Busy blocks'
  ground : Ground initial roots root heap'.kernel
  keeps : Keeps heap.kernel heap'.kernel
  acts : Acts (fun _ => True) heap.kernel heap'.kernel
  asked : new.request = request
  handed : pointer = new.pointer
  chunks : ∀ chunk, chunk ∈ chunksOf blocks' ↔ chunk = new ∨ chunk ∈ chunksOf blocks
  fresh : new ∉ chunksOf blocks
  pages : ∀ block ∈ blocks', (∃ twin ∈ blocks, twin.pages = block.pages) ∨
    block.pages = pagesWanted (request + (alignment + alignInfo))
  bytes : ∀ place, heapOwned heap.kernel.vm place = true → (∀ block ∈ blocks, ¬ block.Header (place + mmapIoBase)) →
    ¬ (new.place ≤ place + mmapIoBase ∧ place + mmapIoBase < new.stop) → heap'.kernel.vm.mem place =
      heap.kernel.vm.mem place
  counters : heap'.lWarningCount = heap.lWarningCount ∧ heap'.lErrorCount = heap.lErrorCount ∧
    heap'.lPossibleOverruns = heap.lPossibleOverruns

theorem chunksOf_insert (split : block.chunks = left ++ right) :
    chunk ∈ chunksOf (pre ++ block.insert left new right :: post) ↔ chunk = new ∨ chunk ∈ chunksOf
      (pre ++ block :: post) := by
  simp only [chunksOf_append, chunksOf_cons, List.mem_append, split, Block.insert, List.mem_cons]
  tauto

/-- A new chunk meets none of those there were. -/
theorem Gap.fresh (gap : Gap block left new right) (shows : Shows heap (pre ++ block :: post)) :
    new ∉ chunksOf (pre ++ block :: post) := by
  have fits := shows.fits block (by simp)
  have fits' := gap.fits fits
  have bounds := fits'.chunk_bounds Block.new_mem
  intro among
  obtain ⟨other, inside, here⟩ := mem_chunksOf.mp among
  have bounds' := (shows.fits other inside).chunk_bounds here
  by_cases same : other = block
  · subst same
    rw [gap.split] at here
    have unique := fits'.unique
    simp only [Block.insert, List.map_append, List.map_cons] at unique
    have rest := List.nodup_middle.mp unique
    rw [List.nodup_cons, ← List.map_append] at rest
    exact rest.1 (List.mem_map_of_mem here)
  · have apart : other.Apart block := shows.apart.forall inside (by simp) same
    have base : (block.insert left new right).base = block.base := rfl
    have stop : (block.insert left new right).stop = block.stop := rfl
    unfold Block.Apart at apart
    omega

/-- What goes into a gap of a block is written to the heap. -/
theorem Place.foreign (place : Place heap block left new right)
    (inserted : Inserted heap.kernel.vm.mem after block left new right) (shows : Shows heap blocks)
    (here : block ∈ blocks) {address : Nat} (foreign : heapOwned heap.kernel.vm address = false) :
    after address = heap.kernel.vm.mem address := by
  have bounds := place.after.chunk_bounds Block.new_mem
  have bottom := place.after.low
  rw [← physical_add address] at foreign ⊢
  apply inserted.bytes _ (by omega)
  · intro header
    rw [shows.header_owned here header] at foreign
    cases foreign
  · rintro ⟨low, high⟩
    have begins : block.base ≤ address + mmapIoBase := Nat.le_trans (Nat.le_trans (Nat.le_add_right _ 40) bounds.1) low
    rw [(shows.given block here).owned _ begins (Nat.lt_of_lt_of_le high bounds.2.2)] at foreign
    cases foreign

theorem Reused.malloced {size : Nat} (reused : Reused heap blocks size request (pointer, heap'))
    (shows : Shows heap blocks) (busy : Busy blocks) (ground : Ground initial roots root heap.kernel)
    (sound : Sound size request) :
    ∃ blocks' new, Malloced initial roots root heap blocks request pointer heap' blocks' new := by
  obtain ⟨pre, block, post, left, right, bet, after, rfl, found, known, inserted, same⟩ := reused
  obtain ⟨rfl, rfl⟩ := Prod.mk.inj same
  have here : block ∈ pre ++ block :: post := by simp
  have stands := shows.stands here
  have place : Place heap block left (block.fresh left size request) right :=
    stands.gap sound (fit_some found).1 (fit_some found).2
  have bases : (pre ++ block.insert left (block.fresh left size request) right :: post).map Block.base =
    (pre ++ block :: post).map Block.base := by
    simp
  have shows' := (shows.inserted inserted place.gap).bets (known.imp_right fun among => bases ▸ among)
  have bytes (address : Nat) (above : mmapIoBase ≤ address)
    (outside : ∀ other ∈ pre ++ block :: post, ¬ other.Header address)
      (apart : ¬ ((block.fresh left size request).place ≤ address ∧ address < (block.fresh left size request).stop)) :
      after (physical address) = heap.kernel.vm.mem (physical address) :=
    inserted.bytes address above (outside block here) apart
  have foreign_bytes (address : Nat) (foreign : heapOwned heap.kernel.vm address = false) : after address =
    heap.kernel.vm.mem address :=
    place.foreign inserted shows here foreign
  refine ⟨_, block.fresh left size request, shows', ?_, ground.write foreign_bytes,
    ⟨fun _ owned => owned, fun _ member => member⟩, (Acts.write foreign_bytes).mono fun _ _ => trivial, rfl, rfl,
    fun chunk => chunksOf_insert place.gap.split, place.gap.fresh shows, ?_, ?_, rfl, rfl, rfl⟩
  · intro other among
    rcases List.mem_append.mp among with front | back
    · exact busy other (by simp [front])
    · rcases List.mem_cons.mp back with rfl | back
      · simp [Block.insert]
      · exact busy other (by simp [back])
  · intro other among
    rcases List.mem_append.mp among with front | back
    · exact .inl ⟨other, by simp [front], rfl⟩
    · rcases List.mem_cons.mp back with rfl | back
      · exact .inl ⟨block, here, rfl⟩
      · exact .inl ⟨other, by simp [back], rfl⟩
  · intro address _ outside apart
    rw [← physical_add address]
    exact bytes _ (by omega) outside apart

/-- A block that has just come takes the chunk it came for. -/
theorem Grown.place {kernel : Kernel} {size : Nat}
    (grows : Grown initial roots root heap.kernel blocks size block kernel after) (shows : Shows heap blocks)
    (ground : Ground initial roots root heap.kernel) (asks : Asks size) (sound : Sound size request) :
    Place (extend heap kernel after blocks block) block [] (block.fresh [] size request) [] :=
  ((grows.showing shows ground asks).stands (by simp : block ∈ blocks ++ [block])).gap sound grows.extended.empty
    (grows.room asks).2

theorem Grown.filled {kernel : Kernel} {size bet : Nat} {mem' : Bytes}
    (grows : Grown initial roots root heap.kernel blocks size block kernel after)
    (inserted : Inserted after mem' block [] (block.fresh [] size request) [])
    (known : bet = heap.lBestBet ∨ bet ∈ (blocks ++ [block]).map Block.base) (shows : Shows heap blocks)
    (ground : Ground initial roots root heap.kernel) (asks : Asks size) (sound : Sound size request) :
    Shows { (extend (heap.bets bet) kernel mem' blocks block) with lInuse := wrap (heap.lInuse + size) }
      (blocks ++ [block.insert [] (block.fresh [] size request) []]) := by
  have shows' : Shows (extend heap kernel after blocks block) (blocks ++ block :: []) := grows.showing shows ground asks
  have bases : (blocks ++ block.insert [] (block.fresh [] size request) [] :: []).map Block.base =
    (blocks ++ [block]).map Block.base := by
    simp
  exact (shows'.inserted inserted (grows.place shows ground asks sound).gap).bets
    (known.imp_right fun among => bases ▸ among)

theorem Expanded.malloced
    (expanded : Expanded initial roots root heap blocks (request + (alignment + alignInfo)) request (pointer, heap'))
    (shows : Shows heap blocks) (busy : Busy blocks) (ground : Ground initial roots root heap.kernel)
    (asked : Asked request) :
    ∃ blocks' new, Malloced initial roots root heap blocks request pointer heap' blocks' new := by
  have asks : Asks (request + (alignment + alignInfo)) := asked
  have sound := asked.sound
  generalize padded : request + (alignment + alignInfo) = size at expanded asks sound
  obtain ⟨block, kernel, grown, bet, after, none, known, grows, inserted, same⟩ := expanded
  obtain ⟨rfl, rfl⟩ := Prod.mk.inj same
  obtain ⟨ground', supplied⟩ := ground.supplies grows.asked
  have shows' : Shows (extend heap kernel grown blocks block) (blocks ++ block :: []) := grows.showing shows ground asks
  have stands := shows'.stands (by simp : block ∈ blocks ++ block :: [])
  have split : block.chunks = [] ++ [] := grows.extended.empty
  have place := grows.place shows ground asks sound
  have final := grows.filled inserted known shows ground asks sound
  have old {chunk : Chunk} : chunk ∈ chunksOf (blocks ++ block :: []) ↔ chunk ∈ chunksOf blocks := by
    rw [chunksOf_append, chunksOf_cons, split]
    simp [chunksOf]
  have bounds := place.after.chunk_bounds Block.new_mem
  have bottom := place.after.low
  have fits := stands.fits
  have foreign_bytes (address : Nat) (foreign : heapOwned kernel.vm address = false) : after address = grown address :=
    place.foreign inserted shows' (by simp) foreign
  have written : Acts (fun action => action.allocates =
    false) kernel { kernel with vm := { kernel.vm with mem := after } } :=
    .write fun address foreign => (foreign_bytes address foreign).trans (grows.bytes address foreign)
  refine ⟨_, block.fresh [] size request, final, ?_, grows.ground.write foreign_bytes,
    ⟨supplied.owned, supplied.entries⟩, (Acts.alloc grows.asked).trans (written.mono fun _ _ => trivial), rfl, rfl,
      fun chunk => ?_,
    fun among => place.gap.fresh shows' (old.mpr among), ?_, ?_, rfl, rfl, rfl⟩
  · intro other among
    rcases List.mem_append.mp among with front | back
    · exact busy other front
    · obtain rfl := List.mem_singleton.mp back
      simp [Block.insert]
  · rw [chunksOf_insert split, old]
  · intro other among
    rcases List.mem_append.mp among with front | back
    · exact .inl ⟨other, front, rfl⟩
    · obtain rfl := List.mem_singleton.mp back
      exact .inr (padded ▸ grows.pages)
  · intro address owned outside apart
    have elsewhere : ¬ (block.base ≤ address + mmapIoBase ∧ address + mmapIoBase < block.stop) := by
      rintro ⟨low, high⟩
      have fresh := supplied.fresh _ low (by rw [← grows.pages]; exact high)
      rw [physical_add] at fresh
      cases fresh.symm.trans owned
    have moved := inserted.bytes (address + mmapIoBase) (by omega) (fun header => ?_) apart
    · rw [physical_add] at moved
      apply moved.trans
      apply grows.extended.bytes address owned
      intro last found
      refine Decidable.byContradiction fun link => outside last (List.mem_of_getLast? found) (.inl ?_)
      have low := (shows.fits last (List.mem_of_getLast? found)).low
      unfold Block.inner
      unfold physical at link
      simp only [majorSize]
      omega
    · have pages := fits.pages.1
      have stop : block.stop = block.base + block.pages * 4096 := rfl
      rcases header with ⟨low, high⟩ | ⟨chunk, here, -⟩
      · unfold Block.inner at high
        simp only [majorSize] at high
        exact elsewhere ⟨low, by omega⟩
      · rw [split] at here
        cases here

/-- Every request that can be met is, by a chunk that was not out; it fails only as the
hook does, and the hook is asked only if no gap of any block is large enough. -/
theorem malloc_meets (ground : Ground initial roots root heap.kernel) (asked : Asked request)
    (shows : Shows heap blocks) (busy : Busy blocks) :
    Meets (heap.malloc request) (fun result =>
      ∃ blocks' new, Malloced initial roots root heap blocks request result.1 result.2 blocks' new)
      (fun fault => (∀ block ∈ blocks, block.fit (request + (alignment + alignInfo)) = none) ∧
        liballocAlloc heap.kernel (pagesWanted (request + (alignment + alignInfo))) = .error fault) := by
  refine (malloc_serves ground asked shows).mono ?_ fun _ failed => failed
  rintro ⟨pointer, heap'⟩ (reused | expanded)
  · exact reused.malloced shows busy ground asked.sound
  · exact expanded.malloced shows busy ground asked

/-- The bytes liballoc keeps for itself. -/
def Own (blocks : List Block) (address : Nat) : Prop :=
  (∃ block ∈ blocks, block.Header address) ∨ ∃ chunk ∈ chunksOf blocks, address = chunk.pointer - alignInfo

/-- The heap stands while its own bytes do. -/
theorem Shows.kernel {kernel : Kernel} (shows : Shows heap blocks) (keeps : Keeps heap.kernel kernel)
    (same : ∀ address, mmapIoBase ≤ address → Own blocks address →
      kernel.vm.mem (physical address) = heap.kernel.vm.mem (physical address)) :
      Shows { heap with kernel } blocks := by
  have header {block : Block} (among : block ∈ blocks) (address : Nat) (above : mmapIoBase ≤ address)
      (own : block.Header address ∨ ∃ chunk ∈ block.chunks, address = chunk.pointer - alignInfo) :
      kernel.vm.mem (physical address) = heap.kernel.vm.mem (physical address) := by
    apply same address above
    rcases own with header | ⟨chunk, inside, rfl⟩
    · exact .inl ⟨block, among, header⟩
    · exact .inr ⟨chunk, mem_chunksOf.mpr ⟨block, among, inside⟩, rfl⟩
  have major (field : MajorField) (base : Nat) (among : base ∈ blocks.map Block.base) :
      member kernel.vm.mem base field = member heap.kernel.vm.mem base field := by
    obtain ⟨block, inside, rfl⟩ := List.mem_map.mp among
    have range := field.inside
    have low := (shows.fits block inside).low
    refine member_congr (shows.fits block inside).direct_base range.1 range.2 fun place first last => ?_
    rw [← physical_add place]
    refine header inside _ (by omega) (.inl (.inl ⟨?_, ?_⟩))
    · unfold physical at first
      omega
    · unfold Block.inner
      unfold physical at last
      simp only [majorSize]
      omega
  have listed := shows.listed
  exact ⟨⟨listed.root, listed.links.congr (major .next) (major .prev), listed.bet, listed.allocated, listed.inuse⟩,
    fun block among => (shows.shown block among).bytes (shows.fits block among) fun address low own =>
      header among address (Nat.le_trans (shows.fits block among).low (by omega)) own, shows.fits, shows.apart,
    fun block among => (shows.given block among).keep keeps⟩

/-- The bytes handed out to clients. -/
def Lent (blocks : List Block) (place : Nat) : Prop :=
  ∃ chunk ∈ chunksOf blocks, physical chunk.pointer ≤ place ∧ place < physical chunk.pointer + chunk.request

/-- What is lent is not liballoc's own. -/
theorem Shows.lent_apart (shows : Shows heap blocks) {address : Nat} (above : mmapIoBase ≤ address)
    (own : Own blocks address) : ¬ Lent blocks (physical address) := by
  rintro ⟨chunk, among, low, high⟩
  have bounds := shows.pointer_bounds among
  have inside : chunk.place + minorSize + alignInfo ≤ address ∧ address < chunk.stop ∧ chunk.pointer ≤ address := by
    unfold physical at low high
    omega
  have body := shows.body among (by omega : chunk.place + minorSize ≤ address) inside.2.1
  rcases own with ⟨block, here, header⟩ | ⟨chunk', among', rfl⟩
  · exact body.2.2 block here header
  · have bounds' := shows.pointer_bounds among'
    simp only [minorSize, alignInfo] at *
    rcases shows.chunks_apart among among' with rfl | front | back
    all_goals omega

theorem Shows.write (shows : Shows heap blocks)
    (same : ∀ place, ¬ Lent blocks place → after place = heap.kernel.vm.mem place) :
    Shows (heap.withMem after) blocks :=
  shows.kernel ⟨fun _ owned => owned, fun _ member => member⟩ fun _ above own => same _ (shows.lent_apart above own)

/-- What `liballoc_free` leaves behind. -/
structure Released (initial : Pmm) (roots : Nat → Prop) (root : Nat) (heap : Liballoc) (blocks : List Block)
    (gone : Chunk) (heap' : Liballoc) (blocks' : List Block) :
    Prop extends Freed initial roots root heap blocks gone blocks' heap' where
  busy : Busy blocks'
  chunks : ∀ chunk, chunk ∈ chunksOf blocks' ↔ chunk ∈ chunksOf blocks ∧ chunk ≠ gone
  twins : ∀ block ∈ blocks', ∃ twin ∈ blocks, twin.base = block.base ∧ twin.pages = block.pages ∧
    block.chunks ⊆ twin.chunks
  acts : Acts (fun action => action.allocates = false) heap.kernel heap'.kernel

theorem mem_without : chunk ∈ chunksOf (without pre block left right post) ↔ chunk ∈ chunksOf (pre ++ post) ∨
    chunk ∈ left ++ right := by
  unfold without
  split
  next empty => simp [empty]
  next =>
    simp only [chunksOf_append, chunksOf_cons, List.mem_append, Block.remove]
    tauto

theorem chunksOf_without (split : block.chunks = left ++ gone :: right) (shows : Shows heap (pre ++ block :: post)) :
    chunk ∈ chunksOf (without pre block left right post) ↔ chunk ∈ chunksOf (pre ++ block :: post) ∧ chunk ≠ gone := by
  have fits := shows.fits block (by simp)
  have elsewhere {other : Block} (among : other ∈ pre ++ post) : gone ∉ other.chunks := by
    intro here
    have inside : other ∈ pre ++ block :: post := by
      simp only [List.mem_append, List.mem_cons] at among ⊢
      tauto
    have apart := shows.apart_at among
    have bounds := (shows.fits other inside).chunk_bounds here
    have bounds' := fits.chunk_bounds (by simp [split] : gone ∈ block.chunks)
    unfold Block.Apart at apart
    omega
  have unique : gone ∉ left ++ right := by
    intro among
    have names := fits.unique
    rw [split, List.map_append, List.map_cons] at names
    have rest := List.nodup_middle.mp names
    rw [List.nodup_cons, ← List.map_append] at rest
    exact rest.1 (List.mem_map_of_mem among)
  have whole : chunk ∈ chunksOf (pre ++ block :: post) ↔ chunk ∈ chunksOf (pre ++ post) ∨ chunk = gone ∨
    chunk ∈ left ++ right := by
    simp only [chunksOf_append, chunksOf_cons, List.mem_append, split, List.mem_cons]
    tauto
  rw [mem_without, whole]
  constructor
  · rintro (among | among)
    · refine ⟨.inl among, ?_⟩
      rintro rfl
      obtain ⟨other, inside, here⟩ := mem_chunksOf.mp among
      exact elsewhere inside here
    · exact ⟨.inr (.inr among), fun same => unique (same ▸ among)⟩
  · rintro ⟨among | same | among, different⟩
    · exact .inl among
    · exact absurd same different
    · exact .inr among

/-- A chunk that is out can be taken back, unless it is the last of a block of a page of
pages or more. -/
theorem free_releases (ground : Ground initial roots root heap.kernel) (shows : Shows heap blocks) (busy : Busy blocks)
    (among : gone ∈ chunksOf blocks) :
    Meets (heap.free gone.pointer) (fun heap' => ∃ blocks', Released initial roots root heap blocks gone heap' blocks')
      (fun _ => ∃ block ∈ blocks, block.chunks = [gone] ∧ pageSize ≤ block.pages) := by
  obtain ⟨block, inside, here⟩ := mem_chunksOf.mp among
  obtain ⟨pre, post, rfl⟩ := List.append_of_mem inside
  obtain ⟨left, right, split⟩ := List.append_of_mem here
  refine (free_meets ground shows split).mono
    (fun heap' freed => ⟨_, freed, ?_, fun chunk => chunksOf_without split shows, ?_, ?_⟩) ?_
  · unfold without
    split
    next empty =>
      intro other member
      apply busy other
      simp only [List.mem_append, List.mem_cons] at member ⊢
      tauto
    next some =>
      intro other member
      rcases List.mem_append.mp member with front | back
      · exact busy other (by simp [front])
      · rcases List.mem_cons.mp back with rfl | back
        · exact some
        · exact busy other (by simp [back])
  · unfold without
    split
    next empty =>
      intro other member
      refine ⟨other, ?_, rfl, rfl, List.Subset.refl _⟩
      simp only [List.mem_append, List.mem_cons] at member ⊢
      tauto
    next some =>
      intro other member
      rcases List.mem_append.mp member with front | back
      · exact ⟨other, by simp [front], rfl, rfl, List.Subset.refl _⟩
      · rcases List.mem_cons.mp back with rfl | back
        · exact ⟨block, inside, rfl, rfl, fun chunk => Block.remove_old split⟩
        · exact ⟨other, by simp [back], rfl, rfl, List.Subset.refl _⟩
  · rw [freed.kernel]
    exact .write fun _ => shows.foreign_bytes freed.bytes
  · rintro _ ⟨empty, many⟩
    obtain ⟨rfl, rfl⟩ := List.append_eq_nil_iff.mp empty
    exact ⟨block, inside, split, many⟩

end Navy.Liballoc
