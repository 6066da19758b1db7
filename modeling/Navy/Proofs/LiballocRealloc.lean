import Navy.Proofs.LiballocCalls

/-! `liballoc_realloc`: a chunk that stays where it is, and the copy of one that has to move. -/

namespace Navy.Liballoc
open FirstFit LinkedList Outcome Paging

variable {mem : Bytes} {block : Block} {blocks pre post : List Block} {left right : List Chunk}
  {chunk other : Chunk} {heap : Liballoc}
  {size target source : Nat}

/-- Words of four bytes, one behind the other, make one copy. -/
theorem copyWords_eq (words : Nat) (apart : source + words * 4 ≤ target ∨ target + words * 4 ≤ source) :
    copyWords mem target source words = mem.copy target source (words * 4) := by
  induction words generalizing mem target source with
  | zero => rfl
  | succ words ih =>
    have whole : (words + 1) * 4 = 4 + words * 4 := by omega
    unfold copyWords
    rw [whole, Bytes.copy_add, ih (by omega), Bytes.write_read _ _ _ _ (by omega)]

theorem liballocMemcpy_eq (count : Nat) (apart : source + count ≤ target ∨ target + count ≤ source) :
    liballocMemcpy mem target source count = mem.copy target source count := by
  have whole : count / 4 * 4 + count % 4 = count := by omega
  unfold liballocMemcpy
  rw [copyWords_eq _ (by omega), ← Bytes.copy_add, whole]

/-- A chunk for which less was asked. -/
def Chunk.resized (chunk : Chunk) (size : Nat) : Chunk := { chunk with request := size }

def Block.resize (block : Block) (left : List Chunk) (chunk : Chunk) (size : Nat) (right : List Chunk) : Block :=
  { block with chunks := left ++ chunk.resized size :: right }

theorem Block.resize_old (among : other ∈ (block.resize left chunk size right).chunks) :
    other = chunk.resized size ∨ other ∈ left ++ right := by
  simp only [Block.resize, List.mem_append, List.mem_cons] at among ⊢
  tauto

section Resizing

variable (split : block.chunks = left ++ chunk :: right)
include split

theorem Block.resize_places : (block.resize left chunk size right).chunks.map Chunk.place =
    block.chunks.map Chunk.place := by
  simp [Block.resize, Chunk.resized, split]

theorem Block.resize_used : (block.resize left chunk size right).used = block.used := by
  unfold Block.used Block.resize
  rw [split, taken_append, taken_append, taken_cons, taken_cons]
  rfl

theorem Block.resize_lent : (block.resize left chunk size right).lent = block.lent := by
  simp [Block.lent, Block.resize, Chunk.resized, split]

theorem Block.Fits.resize (fits : block.Fits) (less : size ≤ chunk.request) :
    (block.resize left chunk size right).Fits := by
  have packed := fits.packed
  rw [split, packed_append] at packed
  refine ⟨fits.low, fits.high, fits.pages, packed_append.mpr packed, fun other among => ?_⟩
  rcases Block.resize_old among with rfl | among
  · have room := fits.room chunk (by simp [split])
    exact Nat.le_trans (Nat.add_le_add_right less _) room
  · exact fits.room other (Block.remove_old split among)

/-- The store of a new request is one to the block with the request in it. -/
theorem Block.resize_edited (fits : block.Fits) (shown : block.Shown mem) (less : size ≤ chunk.request) :
    Edited mem (setMember mem chunk.place MinorField.reqSize size) block (block.resize left chunk size right) := by
  have here : chunk ∈ block.chunks := by simp [split]
  have kept (other : Chunk) (among : other ∈ block.chunks) (field : MinorField) (apart : field ≠ .reqSize) :
      member (setMember mem chunk.place MinorField.reqSize size) other.place field = member mem other.place field := by
    rw [fits.chunk_chunk here among, if_neg fun both => apart both.2]
  have byte (other : Chunk) (among : other ∈ block.chunks) :
      setMember mem chunk.place MinorField.reqSize size (physical (other.pointer - alignInfo)) =
        mem (physical (other.pointer - alignInfo)) := by
    have slack := fits.slack_place among
    have bounds := fits.chunk_bounds among
    have low := fits.low
    exact fits.chunk_byte here _ (by omega) (fits.body among slack.1 slack.2)
  have small : size % 256 ^ (MinorField.field .reqSize).count = size := by
    have room := fits.room chunk here
    have bound := fits.size_small here
    apply Nat.mod_eq_of_lt
    simp only [MinorField.field]
    omega
  have major (field : MajorField) : member (setMember mem chunk.place MinorField.reqSize size) block.base field =
    member mem block.base field :=
    fits.chunk_major here _ field
  refine ⟨rfl, rfl, fits.resize split less, ⟨(major _).trans shown.pages, (major _).trans shown.size, ?_, ?_, ?_,
    ?_⟩, major _, major _, ?_⟩
  · rw [Block.resize_used split]
    exact (major _).trans shown.usage
  · rw [Block.resize_places split]
    exact (major _).trans shown.first
  · rw [Block.resize_places split]
    refine shown.links.congr (fun place among => ?_) (fun place among => ?_)
    · obtain ⟨other, inside, rfl⟩ := List.mem_map.mp among
      exact kept other inside .next (by decide)
    · obtain ⟨other, inside, rfl⟩ := List.mem_map.mp among
      exact kept other inside .prev (by decide)
  · intro other among
    rcases Block.resize_old among with rfl | rest
    · have old := shown.chunks chunk here
      refine ⟨(kept chunk here _ (by decide)).trans old.block, (kept chunk here _ (by decide)).trans old.magic,
        (kept chunk here _ (by decide)).trans old.size, ?_, (byte chunk here).trans old.slack⟩
      apply Eq.trans (fits.chunk_chunk here here _ _)
      rw [if_pos ⟨rfl, rfl⟩]
      exact small
    · have inside := Block.remove_old split rest
      have different : other ≠ chunk := by
        rintro rfl
        have unique := fits.unique
        rw [split, List.map_append, List.map_cons] at unique
        have others := List.nodup_middle.mp unique
        rw [List.nodup_cons, ← List.map_append] at others
        exact others.1 (List.mem_map_of_mem rest)
      have old := shown.chunks other inside
      refine ⟨(kept other inside _ (by decide)).trans old.block, (kept other inside _ (by decide)).trans old.magic,
        (kept other inside _ (by decide)).trans old.size, ?_, (byte other inside).trans old.slack⟩
      apply Eq.trans (fits.chunk_chunk here inside _ _)
      rw [if_neg fun both => different both.1]
      exact old.request
  · intro address low outside
    apply fits.chunk_byte here _ low
    rintro (⟨first, last⟩ | ⟨other, among, first, last⟩)
    · have pages := fits.pages
      unfold Block.inner at last
      unfold Block.stop at outside
      simp only [majorSize, lPageSize] at last outside pages
      omega
    · have bounds := fits.chunk_bounds among
      simp only [minorSize] at last
      omega

end Resizing

/-- A request that has become less is all that `liballoc_realloc` changes. -/
theorem Shows.resized (shows : Shows heap (pre ++ block :: post))
    (split : block.chunks = left ++ chunk :: right) (less : size ≤ chunk.request) :
    Shows (heap.withMem (setMember heap.kernel.vm.mem chunk.place MinorField.reqSize size))
      (pre ++ block.resize left chunk size right :: post) := by
  have here : block ∈ pre ++ block :: post := by simp
  have replaced := shows.replace (Block.resize_edited split (shows.fits block here) (shows.shown block here) less)
  have same : wrap (lent (pre ++ block.resize left chunk size right :: post)) = heap.lInuse := by
    rw [shows.listed.inuse]
    simp only [lent, List.map_append, List.map_cons, Block.resize_lent split]
  rw [same] at replaced
  exact replaced

theorem chunksOf_resize (split : block.chunks = left ++ chunk :: right) (shows : Shows heap (pre ++ block :: post)) :
    other ∈ chunksOf (pre ++ block.resize left chunk size right :: post) ↔
      other = chunk.resized size ∨ other ∈ chunksOf (pre ++ block :: post) ∧ other ≠ chunk := by
  rw [← chunksOf_without split shows, mem_without]
  simp only [chunksOf_append, chunksOf_cons, List.mem_append, Block.resize, List.mem_cons]
  tauto

theorem realloc_eq (shows : Shows heap blocks) (among : chunk ∈ chunksOf blocks) (some : size ≠ 0) :
    heap.realloc chunk.pointer size =
      if size ≤ chunk.request then
        .ok (chunk.pointer, heap.withMem (setMember heap.kernel.vm.mem chunk.place MinorField.reqSize size))
      else heap.moveBlock chunk.pointer size chunk.request := by
  obtain ⟨block, inside, here⟩ := mem_chunksOf.mp among
  have stands := shows.stands inside
  have bounds := chunk.pointer_bounds
  have direct := stands.fits.direct_chunk here
  have shown := stands.shown.chunks chunk here
  have back : wrapSub (chunk.place + minorSize) minorSize = chunk.place := by
    have high := direct.2
    unfold wrapSub wrap
    simp only [minorSize]
    omega
  unfold realloc
  rw [if_neg some, if_neg (by omega), unalign_chunk stands here, ok_bind]
  simp only [back]
  rw [load_minor_bind direct, shown.magic, if_neg (not_not_intro rfl), load_minor_bind direct, shown.request]
  split
  next less =>
    rw [store_minor_bind direct]
    rfl
  next => rfl

end Navy.Liballoc
