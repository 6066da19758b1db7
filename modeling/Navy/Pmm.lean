import Navy.Handover

/-! The physical frame allocator (`pmm.c`): a packed bitmap, a next-fit cursor
and a counter. The spinlock around each entry point is the subject of
`Navy.Locks`; here every call runs to its end. -/

namespace Navy

structure Pmm where
  bitmap : Bytes
  bitmapSize : Nat
  usablePages : Nat
  lastPage : Nat

/-- Every byte of the bitmap is touched through this bound. -/
def bitmapUnused (pmm : Pmm) (index : Nat) : Checked Pmm := do
  let bit := index % 8
  let byte := index / 8
  check (byte < pmm.bitmapSize) .outOfBounds
  return { pmm with
    bitmap := Function.update pmm.bitmap byte (pmm.bitmap byte &&& ~~~(1#8 <<< bit))
    usablePages := wrap (pmm.usablePages + 1) }

def bitmapUsed (pmm : Pmm) (index : Nat) : Checked Pmm := do
  let bit := index % 8
  let byte := index / 8
  check (byte < pmm.bitmapSize) .outOfBounds
  return { pmm with
    bitmap := Function.update pmm.bitmap byte (pmm.bitmap byte ||| (1#8 <<< bit))
    usablePages := wrapSub pmm.usablePages 1 }

def isSetPmm (pmm : Pmm) (index : Nat) : Bool :=
  let bit := index % 8
  let byte := index / 8
  pmm.bitmap byte &&& (1#8 <<< bit) != 0#8

/-- The loop `pmm_range_used` and `pmm_range_unused` share. -/
def pmmRange (touch : Pmm → Nat → Checked Pmm) (pmm : Pmm) (range : Range) : Checked Pmm :=
  let target := range.base / pageSize
  (List.range (range.length / pageSize)).foldlM (fun pmm i => touch pmm (wrap (target + i))) pmm

def pmmRangeUsed (pmm : Pmm) (range : Range) : Checked Pmm := pmmRange bitmapUsed pmm range

def pmmRangeUnused (pmm : Pmm) (range : Range) : Checked Pmm := pmmRange bitmapUnused pmm range

/-- The scan of `pmm_find_pages` from page `i`, with `remaining` pages left
below `bitmap_size` and the candidate collected so far. -/
def findLoop (pmm : Pmm) (amount : Nat) : Nat → Nat → Range → Range
  | 0, _, range => range
  | remaining + 1, i, range =>
    if range.length < amount then
      if !isSetPmm pmm i then
        let base := if range.length = 0 then wrap (i * pageSize) else range.base
        findLoop pmm amount remaining (i + 1) ⟨base, wrap (range.length + pageSize)⟩
      else
        findLoop pmm amount remaining (i + 1) ⟨range.base, 0⟩
    else range

/-- `fuel` bounds the activations of the recursive call, which repeats the
search with the same argument and the same statics. -/
def pmmFindPages : Nat → Pmm → Nat → Checked (Range × Pmm)
  | 0, _, _ => .error .noReturn
  | fuel + 1, pmm, amount => do
    let range := findLoop pmm amount (pmm.bitmapSize - pmm.lastPage) pmm.lastPage ⟨0, 0⟩
    if amount ≤ range.length then
      let lastPage := wrap (range.base + range.length) / pageSize
      let used ← pmmRangeUsed { pmm with lastPage } range
      return (range, used)
    else if pmm.lastPage = 0 then
      return (⟨0, 0⟩, pmm)
    else
      pmmFindPages fuel pmm amount

/-- Activations granted to one search. The result does not depend on it: see
`pmmFindPages_fuel`. -/
def searchFuel : Nat := 1

def pmmAlloc (pmm : Pmm) (amount : Nat) : Checked (Range × Pmm) := do
  check (0 < pmm.usablePages) .assertion
  pmmFindPages searchFuel pmm amount

def pmmFree (pmm : Pmm) (range : Range) : Checked Pmm := pmmRangeUnused pmm range

/-- The first loop of `pmm_init`: while `bitmap` is still `NULL`, take it from
the start of a free entry longer than the bitmap. -/
def placeBitmap (bitmapSize : Nat) : Nat → List MmapEntry → Nat × List MmapEntry
  | bitmap, [] => (bitmap, [])
  | bitmap, mmap :: rest =>
    if bitmap = 0 ∧ mmap.isFree ∧ bitmapSize < mmap.range.length then
      let taken := alignUp bitmapSize pageSize
      let range := ⟨wrap (mmap.range.base + taken), wrapSub mmap.range.length taken⟩
      let (bitmap, rest) := placeBitmap bitmapSize (mmapPhysToIo mmap.range.base) rest
      (bitmap, { mmap with range } :: rest)
    else
      let (bitmap, rest) := placeBitmap bitmapSize bitmap rest
      (bitmap, mmap :: rest)

/-- The allocator starts with every page taken, releases the free entries, and
takes the bitmap's own pages again. The memory map comes back as edited. -/
def pmmInit (handover : Handover) : Checked (Pmm × Handover) := do
  let lastMmap ← match handover.mmap.getLast? with
    | some lastMmap => .ok lastMmap
    | none => .error .outOfBounds
  let memoryEnd := wrap (lastMmap.range.base + lastMmap.range.length)
  let bitmapSize := memoryEnd / (pageSize * 8)
  let (bitmap, mmap) := placeBitmap bitmapSize 0 handover.mmap
  check (bitmap ≠ 0) .assertion
  let pmm : Pmm := ⟨Bytes.fill (fun _ => 0) 0 bitmapSize 0xff, bitmapSize, 0, 0⟩
  let pmm ← mmap.foldlM (fun pmm mmap =>
    if mmap.isFree then
      pmmRangeUnused pmm ⟨alignDown mmap.range.base pageSize, alignUp mmap.range.length pageSize⟩
    else return pmm) pmm
  let pmm ← pmmRangeUsed pmm ⟨mmapIoToPhys bitmap, bitmapSize⟩
  return (pmm, { handover with mmap })

end Navy
