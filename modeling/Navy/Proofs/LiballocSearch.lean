import Navy.Proofs.LiballocCases

/-! The search through one block is a first fit. -/

namespace Navy.Liballoc
open FirstFit LinkedList Outcome

variable {block : Block} {pre right : List Chunk} {min : Chunk} {heap : Liballoc} {size request : Nat}

/-- A block as it lies in memory. -/
structure Stands (heap : Liballoc) (block : Block) : Prop where
  fits : block.Fits
  shown : block.Shown heap.kernel.vm.mem

/-- A request with the room to align its pointer. -/
structure Sound (size request : Nat) : Prop where
  room : request + (alignment + alignInfo) ≤ size
  small : size + minorSize < 2 ^ 64

/-- The gaps of a block in front of which some chunks lie. -/
def Block.fit (block : Block) (size : Nat) : Option (List Chunk × List Chunk) :=
  FirstFit.fit Chunk.place Chunk.stop (size + minorSize) block.stop block.inner block.chunks

/-- The chunk that comes behind some others. -/
def Block.fresh (block : Block) (left : List Chunk) (size request : Nat) : Chunk :=
  ⟨behind Chunk.stop block.inner left, size, request⟩

/-- A search that found a gap has put the chunk there; one that found none did nothing. -/
def Finds (heap : Liballoc) (block : Block) (size request : Nat) (found : Option (List Chunk × List Chunk))
    (result : Checked (Option (Nat × Liballoc))) : Prop :=
  match found with
  | none => result = .ok none
  | some (left, right) => ∃ placed, result = .ok (some placed) ∧
      HandsOut heap heap.kernel.vm.mem block left (block.fresh left size request) right (.ok placed)

theorem HandsOut.found {left : List Chunk} {new : Chunk} {result : Checked (Nat × Liballoc)}
    (hands : HandsOut heap heap.kernel.vm.mem block left new right result)
    (same : new = block.fresh left size request) :
    Finds heap block size request (some (left, right)) (result >>= fun placed => .ok (some placed)) := by
  subst same
  obtain ⟨after, rfl, inserted⟩ := hands
  exact ⟨_, rfl, after, rfl, inserted⟩

theorem wrapSub_wrap (first second : Nat) : wrapSub (wrap first) second = wrapSub first second := by
  unfold wrapSub wrap
  omega

/-- What lies between the end of a chunk and a place behind it. -/
theorem gap_diff {far place size : Nat} (less : place + minorSize + size ≤ far)
    (small : far - (place + minorSize + size) < 2 ^ 64) :
    wrapSub (wrapSub (wrapSub far place) minorSize) size = far - (place + minorSize + size) := by
  unfold wrapSub wrap
  simp only [minorSize] at less small ⊢
  omega

theorem Stands.gap (stands : Stands heap block) (sound : Sound size request) {left : List Chunk}
    (split : block.chunks = left ++ right)
    (fits : behind Chunk.stop block.inner left + (size + minorSize) ≤ before Chunk.place block.stop right) :
    Place heap block left (block.fresh left size request) right := by
  refine ⟨⟨split, Nat.le_refl _, ?_, sound.room⟩, stands.fits, stands.shown⟩
  unfold Chunk.stop Block.fresh
  simp only
  omega

theorem behind_snoc {low : Nat} : behind Chunk.stop low (pre ++ [min]) = min.stop := by
  induction pre generalizing low with
  | nil => rfl
  | cons chunk rest ih => exact ih

/-- CASE 4, by the chunks that are left. -/
theorem searchMinors_finds (stands : Stands heap block) (sound : Sound size request) {fuel : Nat}
    (enough : right.length + 1 < fuel) (split : block.chunks = pre ++ min :: right) :
    Finds heap block size request ((FirstFit.fit Chunk.place Chunk.stop
      (size + minorSize) block.stop min.stop right).map
        fun found => (pre ++ min :: found.1, found.2))
      (searchMinors block.base size request fuel heap min.place) := by
  induction right generalizing pre min fuel with
  | nil =>
    obtain ⟨fuel, rfl⟩ : ∃ rest, fuel = rest + 1 + 1 := ⟨fuel - 2, by simp only [List.length_nil] at enough; omega⟩
    have among : min ∈ block.chunks := by simp [split]
    have direct := stands.fits.direct_chunk among
    have inside := stands.fits.chunk_bounds among
    have low := stands.fits.low
    have high := stands.fits.high
    have io : 0 < mmapIoBase := by decide
    have stop : min.stop = min.place + minorSize + min.size := rfl
    have next : member heap.kernel.vm.mem min.place MinorField.next = 0 :=
      (stands.shown.links (pre.map Chunk.place) min.place [] (by simp [split])).2
    have small := sound.small
    unfold searchMinors
    rw [if_neg (by omega), load_minor_bind direct, load_minor_bind direct, (stands.shown.chunks min among).size,
      next, if_pos rfl, load_major_bind stands.fits.direct_base, stands.shown.size]
    simp only [wrapSub_wrap]
    rw [gap_diff (by unfold Block.stop at inside; omega) (by unfold Block.stop at inside high; omega),
      wrap_of_lt small, FirstFit.fit]
    by_cases large : min.stop + (size + minorSize) ≤ block.stop
    · rw [if_pos large, if_pos (by unfold Block.stop at large; omega)]
      have place : Place heap block (pre ++ [min]) (block.fresh (pre ++ [min]) size request) [] :=
        stands.gap sound (by simp [split]) (by rw [behind_snoc]; exact large)
      exact (placeLast_hands place behind_snoc).found rfl
    · rw [if_neg large, if_neg (by unfold Block.stop at large inside; omega)]
      unfold searchMinors
      rw [if_pos rfl]
      rfl
  | cons chunk right ih =>
    obtain ⟨fuel, rfl⟩ : ∃ rest, fuel = rest + 1 := ⟨fuel - 1, by omega⟩
    have among : min ∈ block.chunks := by simp [split]
    have beyond : chunk ∈ block.chunks := by simp [split]
    have direct := stands.fits.direct_chunk among
    have inside := stands.fits.chunk_bounds among
    have inside' := stands.fits.chunk_bounds beyond
    have low := stands.fits.low
    have high := stands.fits.high
    have io : 0 < mmapIoBase := by decide
    have stop : min.stop = min.place + minorSize + min.size := rfl
    have next : member heap.kernel.vm.mem min.place MinorField.next = chunk.place :=
      (stands.shown.links (pre.map Chunk.place) min.place (chunk.place :: right.map Chunk.place) (by simp [split])).2
    have order : min.stop ≤ chunk.place := by
      have packed := stands.fits.packed
      rw [split] at packed
      exact (packed_append.mp packed).2.2.2.1
    have small := sound.small
    unfold searchMinors
    rw [if_neg (by omega), load_minor_bind direct, load_minor_bind direct, (stands.shown.chunks min among).size,
      next, if_neg (by omega)]
    simp only
    rw [gap_diff (by omega) (by omega), wrap_of_lt small, FirstFit.fit]
    by_cases large : min.stop + (size + minorSize) ≤ chunk.place
    · rw [if_pos large, if_pos (by omega)]
      have place : Place heap block (pre ++ [min]) (block.fresh (pre ++ [min]) size request) (chunk :: right) :=
        stands.gap sound (by simp [split]) (by rw [behind_snoc]; exact large)
      exact (placeBetween_hands place behind_snoc).found rfl
    · have short : ¬ chunk.place - (min.place + minorSize + min.size) ≥ size + minorSize := by omega
      rw [if_neg large, if_neg short]
      have further :=
        ih (Nat.lt_of_succ_lt_succ enough) (by simp [split] : block.chunks = (pre ++ [min]) ++ chunk :: right)
      rw [Option.map_map]
      simpa [Function.comp_def] using further

theorem Block.Fits.few (fits : block.Fits) : block.chunks.length < 2 ^ 31 := by
  have count : block.chunks.length ≤ taken Chunk.place Chunk.stop block.chunks := by
    apply length_le_taken
    intro chunk among
    have := fits.chunk_bounds among
    omega
  have room := fits.room_used
  have pages := fits.pages
  unfold Block.inner Block.stop at room
  omega

/-- CASES 2 to 4. A block without chunks is taken as it is. -/
theorem searchMajor_finds (stands : Stands heap block) (sound : Sound size request)
    (room : block.chunks = [] → block.inner + (size + minorSize) ≤ block.stop) :
    Finds heap block size request (block.fit size) (heap.searchMajor block.base size request) := by
  have first := stands.shown.first
  have direct := stands.fits.direct_base
  have low := stands.fits.low
  have high := stands.fits.high
  have small := sound.small
  unfold searchMajor Block.fit
  rw [load_major_bind direct, first]
  cases split : block.chunks with
  | nil =>
    have large := room split
    simp only [List.map_nil, List.headD_nil, if_true, FirstFit.fit, if_pos large]
    have place : Place heap block [] (block.fresh [] size request) [] := stands.gap sound split large
    exact (placeFirst_hands place rfl).found rfl
  | cons chunk right =>
    have among : chunk ∈ block.chunks := by simp [split]
    have inside := stands.fits.chunk_bounds among
    have fuel : right.length + 1 < walkFuel := by
      have few := stands.fits.few
      rw [split] at few
      unfold walkFuel
      simp only [List.length_cons] at few
      omega
    have inner : block.inner = block.base + 40 := rfl
    have major : majorSize = 40 := rfl
    have diff : wrapSub (wrapSub chunk.place block.base) majorSize = chunk.place - block.inner := by
      unfold wrapSub wrap
      omega
    have named : ¬ chunk.place = 0 := by omega
    simp only [List.map_cons, List.headD_cons, if_neg named, diff, wrap_of_lt small, FirstFit.fit]
    by_cases large : block.inner + (size + minorSize) ≤ chunk.place
    · have found : chunk.place - block.inner ≥ size + minorSize := by omega
      rw [if_pos large, if_pos found]
      have place : Place heap block [] (block.fresh [] size request) (chunk :: right) := stands.gap sound split large
      exact (placeFront_hands place rfl).found rfl
    · have short : ¬ chunk.place - block.inner ≥ size + minorSize := by omega
      rw [if_neg large, if_neg short]
      have front : block.chunks = [] ++ chunk :: right := split
      exact searchMinors_finds stands sound fuel front

end Navy.Liballoc
