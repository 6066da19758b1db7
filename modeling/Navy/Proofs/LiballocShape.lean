import Navy.Library.FirstFit
import Navy.Library.LinkedList
import Navy.Proofs.LiballocFields

/-! What the heap of liballoc is: blocks from the system, each with the chunks that
were handed out of it, and how memory shows them. -/

namespace Navy.Liballoc
open FirstFit LinkedList

/-- A minor: where its header is, the size it takes behind it, and what was asked for. -/
structure Chunk where
  place : Nat
  size : Nat
  request : Nat
deriving DecidableEq

def Chunk.stop (chunk : Chunk) : Nat := chunk.place + minorSize + chunk.size

/-- The pointer handed out: the next aligned one with room in front of it for the byte of `ALIGN`. -/
def Chunk.pointer (chunk : Chunk) : Nat := (chunk.place + minorSize + alignInfo + 15) / 16 * 16

/-- A major: where it begins, its number of pages, and its minors in order. -/
structure Block where
  base : Nat
  pages : Nat
  chunks : List Chunk
deriving DecidableEq

def Block.stop (block : Block) : Nat := block.base + block.pages * lPageSize

def Block.inner (block : Block) : Nat := block.base + majorSize

def Block.used (block : Block) : Nat := majorSize + taken Chunk.place Chunk.stop block.chunks

/-- An address inside one of the headers of a block. -/
def Block.Header (block : Block) (address : Nat) : Prop :=
  block.base ≤ address ∧ address < block.inner ∨ ∃ chunk ∈ block.chunks, chunk.place ≤ address ∧
    address < chunk.place + minorSize

/-- The geometry of a block. -/
structure Block.Fits (block : Block) : Prop where
  low : mmapIoBase ≤ block.base
  high : block.stop ≤ 2 ^ 64
  pages : 0 < block.pages ∧ block.pages * lPageSize < 2 ^ 31
  packed : Packed Chunk.place Chunk.stop block.inner block.stop block.chunks
  room : ∀ chunk ∈ block.chunks, chunk.request + (alignment + alignInfo) ≤ chunk.size

/-- The members of a minor but its links, and the byte in front of its pointer. -/
structure Chunk.Shown (mem : Bytes) (base : Nat) (chunk : Chunk) : Prop where
  block : member mem chunk.place MinorField.block = base
  magic : member mem chunk.place MinorField.magic = liballocMagic
  size : member mem chunk.place MinorField.size = chunk.size
  request : member mem chunk.place MinorField.reqSize = chunk.request
  slack : mem (physical (chunk.pointer - alignInfo)) = BitVec.ofNat 8 (chunk.pointer - (chunk.place + minorSize))

structure Block.Shown (mem : Bytes) (block : Block) : Prop where
  pages : member mem block.base MajorField.pages = block.pages
  size : member mem block.base MajorField.size = block.pages * lPageSize
  usage : member mem block.base MajorField.usage = block.used
  first : member mem block.base MajorField.first = (block.chunks.map Chunk.place).headD 0
  links : Linked (fun place => member mem place MinorField.next) (fun place => member mem place MinorField.prev) 0 0
    (block.chunks.map Chunk.place)
  chunks : ∀ chunk ∈ block.chunks, chunk.Shown mem block.base

/-- Bytes the blocks take, and bytes of them that are lent. -/
def allocated (blocks : List Block) : Nat := (blocks.map fun block => block.pages * lPageSize).sum

def Block.lent (block : Block) : Nat := (block.chunks.map Chunk.size).sum

def lent (blocks : List Block) : Nat := (blocks.map Block.lent).sum

def Block.Apart (first second : Block) : Prop := first.stop ≤ second.base ∨ second.stop ≤ first.base

/-- The block is one the system gave. -/
structure Block.Given (vm : Vm) (block : Block) : Prop where
  owned : ∀ address, block.base ≤ address → address < block.stop → heapOwned vm (physical address) = true
  entry : ∃ range, (Owner.heap, range) ∈ vm.owners ∧ mmapPhysToIo range.base = block.base

/-- The list of blocks and the statics. -/
structure Listed (heap : Liballoc) (blocks : List Block) : Prop where
  root : heap.lMemRoot = (blocks.map Block.base).headD 0
  links : Linked (fun base => member heap.kernel.vm.mem base MajorField.next)
    (fun base => member heap.kernel.vm.mem base MajorField.prev) 0 0
    (blocks.map Block.base)
  bet : heap.lBestBet = 0 ∨ heap.lBestBet ∈ blocks.map Block.base
  allocated : heap.lAllocated = wrap (allocated blocks)
  inuse : heap.lInuse = wrap (lent blocks)

structure Shows (heap : Liballoc) (blocks : List Block) : Prop where
  listed : Listed heap blocks
  shown : ∀ block ∈ blocks, block.Shown heap.kernel.vm.mem
  fits : ∀ block ∈ blocks, block.Fits
  apart : blocks.Pairwise Block.Apart
  given : ∀ block ∈ blocks, block.Given heap.kernel.vm

variable {mem after : Bytes} {block : Block} {chunk : Chunk}

theorem Chunk.pointer_bounds (chunk : Chunk) :
    chunk.place + 56 ≤ chunk.pointer ∧ chunk.pointer < chunk.place + 72 ∧ chunk.pointer % 16 = 0 := by
  unfold Chunk.pointer
  simp only [minorSize, alignInfo]
  omega

/-- What was asked for lies in the chunk. -/
theorem Chunk.pointer_room (room : chunk.request + (alignment + alignInfo) ≤ chunk.size) :
    chunk.pointer + chunk.request ≤ chunk.stop := by
  have := chunk.pointer_bounds
  unfold Chunk.stop
  simp only [alignment, alignInfo, minorSize] at room ⊢
  omega

namespace Block.Fits

variable (fits : block.Fits)
include fits

theorem chunk_bounds (member : chunk ∈ block.chunks) :
    block.base + 40 ≤ chunk.place ∧ chunk.place + 40 ≤ chunk.stop ∧ chunk.stop ≤ block.stop := by
  obtain ⟨low, whole, high⟩ := fits.packed.bounds member
  unfold Block.inner at low
  refine ⟨low, ?_, high⟩
  unfold Chunk.stop
  simp only [minorSize]
  omega

theorem direct_base : Direct block.base := by
  have := fits.low
  have := fits.high
  have := fits.pages
  unfold Block.stop at *
  simp only [lPageSize] at *
  exact ⟨fits.low, by omega⟩

theorem direct_chunk (member : chunk ∈ block.chunks) : Direct chunk.place := by
  have := fits.low
  have := fits.high
  have := fits.chunk_bounds member
  exact ⟨by omega, by omega⟩

theorem room_used : block.inner + taken Chunk.place Chunk.stop block.chunks ≤ block.stop := fits.packed.room

theorem used_small : block.used ≤ block.pages * lPageSize ∧ block.used < 2 ^ 31 := by
  have := fits.room_used
  have := fits.pages
  unfold Block.used
  unfold Block.inner Block.stop at *
  omega

theorem size_small (member : chunk ∈ block.chunks) : chunk.size + 40 < 2 ^ 31 := by
  have := fits.chunk_bounds member
  have := fits.pages
  unfold Block.stop Chunk.stop at *
  simp only [minorSize] at *
  omega

end Block.Fits

/-- A block is shown by its headers, but for the links to other blocks, and by the bytes
in front of its pointers. -/
theorem Block.Shown.bytes (shown : block.Shown mem) (fits : block.Fits)
    (same : ∀ address, block.base + 16 ≤ address →
      (block.Header address ∨ ∃ chunk ∈ block.chunks, address = chunk.pointer - alignInfo) →
      after (physical address) = mem (physical address)) : block.Shown after := by
  have low := fits.low
  have major (field : MajorField) (behind : 16 ≤ field.field.offset) : member after block.base field =
    member mem block.base field := by
    have inside := field.inside
    refine member_congr fits.direct_base inside.1 inside.2 fun place first last => ?_
    unfold physical at first last
    rw [← physical_add place]
    refine same _ (by omega) (.inl (.inl ⟨by omega, ?_⟩))
    unfold Block.inner
    simp only [majorSize]
    omega
  have minor (chunk : Chunk) (among : chunk ∈ block.chunks) (field : MinorField) :
      member after chunk.place field = member mem chunk.place field := by
    have inside := field.inside
    have bounds := fits.chunk_bounds among
    refine member_congr (fits.direct_chunk among) inside.1 inside.2 fun place first last => ?_
    unfold physical at first last
    rw [← physical_add place]
    refine same _ (by omega) (.inl (.inr ⟨chunk, among, by omega, ?_⟩))
    simp only [minorSize]
    omega
  refine ⟨(major _ (by decide)).trans shown.pages, (major _ (by decide)).trans shown.size,
    (major _ (by decide)).trans shown.usage, (major _ (by decide)).trans shown.first, ?_, fun chunk among => ?_⟩
  · refine shown.links.congr (fun place among => ?_) (fun place among => ?_)
    all_goals
      obtain ⟨chunk, inside, rfl⟩ := List.mem_map.mp among
      exact minor chunk inside _
  · have old := shown.chunks chunk among
    have pointer := chunk.pointer_bounds
    have bounds := fits.chunk_bounds among
    have slack := same (chunk.pointer - alignInfo) (by simp only [alignInfo]; omega) (.inr ⟨chunk, among, rfl⟩)
    exact ⟨(minor chunk among _).trans old.block, (minor chunk among _).trans old.magic,
      (minor chunk among _).trans old.size, (minor chunk among _).trans old.request, slack.trans old.slack⟩

/-- The bytes of a block behind its links show it. -/
theorem Block.Shown.congr (shown : block.Shown mem) (fits : block.Fits)
    (same : ∀ place, physical block.base + 16 ≤ place → place < physical block.base + block.pages * lPageSize →
      after place = mem place) :
    block.Shown after := by
  have low := fits.low
  have pages := fits.pages.1
  have stop : block.stop = block.base + block.pages * 4096 := rfl
  have size : lPageSize = 4096 := rfl
  refine shown.bytes fits fun address behind own => ?_
  have inside : address < block.stop := by
    rcases own with (⟨-, high⟩ | ⟨chunk, among, -, high⟩) | ⟨chunk, among, rfl⟩
    · unfold Block.inner at high
      simp only [majorSize] at high
      omega
    · have bounds := fits.chunk_bounds among
      simp only [minorSize] at high
      omega
    · have bounds := fits.chunk_bounds among
      have room := Chunk.pointer_room (fits.room chunk among)
      have pointer := chunk.pointer_bounds
      simp only [alignInfo]
      omega
  apply same
  · unfold physical
    omega
  · rw [size]
    unfold physical
    omega

end Navy.Liballoc
