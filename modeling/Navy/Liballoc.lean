import Navy.Heap

/-! The allocator behind the kernel heap (`liballoc.c`) and the entry points of
`kmalloc.c`. Its headers lie in memory, in front of what it hands out. It is built
without `DEBUG` and `INFO`; what a call locks is the subject of `Navy.Locks`. -/

namespace Navy

/-- The statics of `liballoc.c` with the machine they are part of. `l_pageSize`
and `l_pageCount` are never written. -/
structure Liballoc where
  kernel : Kernel
  lMemRoot : Nat
  lBestBet : Nat
  lAllocated : Nat
  lInuse : Nat
  lWarningCount : Nat
  lErrorCount : Nat
  lPossibleOverruns : Nat

namespace Liballoc

def alignment : Nat := 16
def alignInfo : Nat := 16
def liballocMagic : Nat := 0xc001c0de
def liballocDead : Nat := 0xdeaddead
def lPageSize : Nat := 4096
def lPageCount : Nat := 16

/-- The members of `struct liballoc_major`. -/
inductive MajorField where
  | prev
  | next
  | pages
  | size
  | usage
  | first
deriving DecidableEq

/-- The members of `struct liballoc_minor`. -/
inductive MinorField where
  | prev
  | next
  | block
  | magic
  | size
  | reqSize
deriving DecidableEq

/-- Where a member lies behind the pointer to its structure, and how many bytes it has. -/
structure Field where
  offset : Nat
  count : Nat

@[coe] def MajorField.field : MajorField → Field
  | .prev => ⟨0, 8⟩
  | .next => ⟨8, 8⟩
  | .pages => ⟨16, 4⟩
  | .size => ⟨20, 4⟩
  | .usage => ⟨24, 4⟩
  | .first => ⟨32, 8⟩

@[coe] def MinorField.field : MinorField → Field
  | .prev => ⟨0, 8⟩
  | .next => ⟨8, 8⟩
  | .block => ⟨16, 8⟩
  | .magic => ⟨24, 4⟩
  | .size => ⟨28, 4⟩
  | .reqSize => ⟨32, 4⟩

instance : Coe MajorField Field := ⟨MajorField.field⟩
instance : Coe MinorField Field := ⟨MinorField.field⟩

/-- `sizeof(struct liballoc_major)` and `sizeof(struct liballoc_minor)`. -/
def majorSize : Nat := 40
def minorSize : Nat := 40

/-- A member as it stands in memory. -/
def member (mem : Bytes) (pointer : Nat) (field : Field) : Nat :=
  mem.read (mmapIoToPhys (wrap (pointer + field.offset))) field.count

def setMember (mem : Bytes) (pointer : Nat) (field : Field) (value : Nat) : Bytes :=
  mem.write (mmapIoToPhys (wrap (pointer + field.offset))) field.count value

def withMem (heap : Liballoc) (mem : Bytes) : Liballoc :=
  { heap with kernel := { heap.kernel with vm := { heap.kernel.vm with mem } } }

/-- An access below the direct map is one through `NULL`. -/
def load (heap : Liballoc) (pointer : Nat) (field : Field) : Checked Nat := do
  check (mmapIoBase ≤ wrap (pointer + field.offset)) .outOfBounds
  return member heap.kernel.vm.mem pointer field

def store (heap : Liballoc) (pointer : Nat) (field : Field) (value : Nat) : Checked Liballoc := do
  check (mmapIoBase ≤ wrap (pointer + field.offset)) .outOfBounds
  return heap.withMem (setMember heap.kernel.vm.mem pointer field value)

/-- A `char` as `ALIGN_TYPE`. -/
def alignByte : Field := ⟨0, 1⟩

/-- The macro `ALIGN`: how far a pointer was moved up is kept in front of it. -/
def align (heap : Liballoc) (ptr : Nat) : Checked (Nat × Liballoc) := do
  let ptr := wrap (ptr + alignInfo)
  let diff := ptr % alignment
  let (ptr, diff) := if diff ≠ 0 then (wrap (ptr + (alignment - diff)), alignment - diff) else (ptr, diff)
  let heap ← heap.store (wrapSub ptr alignInfo) alignByte (diff + alignInfo)
  return (ptr, heap)

/-- The macro `UNALIGN`. A `char` is signed. -/
def unalign (heap : Liballoc) (ptr : Nat) : Checked Nat := do
  let byte ← heap.load (wrapSub ptr alignInfo) alignByte
  let diff := ((BitVec.ofNat 8 byte).signExtend 64).toNat
  return if diff < alignment + alignInfo then wrapSub ptr diff else ptr

/-- The number of pages `allocate_new_page` asks for. It counts in `unsigned int`. -/
def pagesWanted (size : Nat) : Nat :=
  let st := (size + majorSize) % 2 ^ 32
  let st := (st + minorSize) % 2 ^ 32
  let st := if st % lPageSize = 0 then st / lPageSize else st / lPageSize + 1
  if st < lPageCount then lPageCount else st

/-- `liballoc_alloc` multiplies two `int`s; past their range nothing is promised. -/
def systemAlloc (heap : Liballoc) (pages : Nat) : Checked (Nat × Liballoc) := do
  check (pages * pageSize < 2 ^ 31) .outOfBounds
  let (pointer, kernel) ← liballocAlloc heap.kernel pages
  return (pointer, { heap with kernel })

def systemFree (heap : Liballoc) (pointer pages : Nat) : Checked Liballoc := do
  let kernel ← liballocFree heap.kernel pointer pages
  return { heap with kernel }

def allocateNewPage (heap : Liballoc) (size : Nat) : Checked (Nat × Liballoc) := do
  let st := pagesWanted (size % 2 ^ 32)
  let (maj, heap) ← heap.systemAlloc st
  if maj = 0 then return (0, { heap with lWarningCount := heap.lWarningCount + 1 })
  else
    let heap ← heap.store maj MajorField.prev 0
    let heap ← heap.store maj MajorField.next 0
    let heap ← heap.store maj MajorField.pages st
    let heap ← heap.store maj MajorField.size (st * lPageSize)
    let heap ← heap.store maj MajorField.usage majorSize
    let heap ← heap.store maj MajorField.first 0
    let size ← heap.load maj MajorField.size
    return (maj, { heap with lAllocated := wrap (heap.lAllocated + size) })

/-- `maj->next = allocate_new_page(size)` and the link back. -/
def appendNewPage (heap : Liballoc) (maj size : Nat) : Checked (Nat × Liballoc) := do
  let (next, heap) ← heap.allocateNewPage size
  let heap ← heap.store maj MajorField.next next
  if next = 0 then return (0, heap)
  else
    let heap ← heap.store next MajorField.prev maj
    return (next, heap)

/-- The difference of two `unsigned int`s. -/
def wordSub (first second : Nat) : Nat := (first + (2 ^ 32 - second % 2 ^ 32)) % 2 ^ 32

/-- `maj->size - maj->usage`. -/
def spare (heap : Liballoc) (maj : Nat) : Checked Nat := do
  let size ← heap.load maj MajorField.size
  let usage ← heap.load maj MajorField.usage
  return wordSub size usage

/-- How every case of `liballoc_malloc` ends that found a place. -/
def handOut (heap : Liballoc) (maj min size : Nat) : Checked (Nat × Liballoc) := do
  let usage ← heap.load maj MajorField.usage
  let heap ← heap.store maj MajorField.usage (usage + (size + minorSize))
  let heap := { heap with lInuse := wrap (heap.lInuse + size) }
  heap.align (wrap (min + minorSize))

/-- CASE 2, a brand new block. -/
def placeFirst (heap : Liballoc) (maj size reqSize : Nat) : Checked (Nat × Liballoc) := do
  let heap ← heap.store maj MajorField.first (wrap (maj + majorSize))
  let first ← heap.load maj MajorField.first
  let heap ← heap.store first MinorField.magic liballocMagic
  let heap ← heap.store first MinorField.prev 0
  let heap ← heap.store first MinorField.next 0
  let heap ← heap.store first MinorField.block maj
  let heap ← heap.store first MinorField.size size
  let heap ← heap.store first MinorField.reqSize reqSize
  heap.handOut maj first size

/-- CASE 3, in front of the first minor. -/
def placeFront (heap : Liballoc) (maj size reqSize : Nat) : Checked (Nat × Liballoc) := do
  let first ← heap.load maj MajorField.first
  let heap ← heap.store first MinorField.prev (wrap (maj + majorSize))
  let front ← heap.load first MinorField.prev
  let heap ← heap.store front MinorField.next first
  let heap ← heap.store maj MajorField.first front
  let heap ← heap.store front MinorField.magic liballocMagic
  let heap ← heap.store front MinorField.prev 0
  let heap ← heap.store front MinorField.block maj
  let heap ← heap.store front MinorField.size size
  let heap ← heap.store front MinorField.reqSize reqSize
  heap.handOut maj front size

/-- CASE 4.1, behind the last minor. -/
def placeLast (heap : Liballoc) (maj min size reqSize : Nat) : Checked (Nat × Liballoc) := do
  let minSize ← heap.load min MinorField.size
  let heap ← heap.store min MinorField.next (wrap (min + minorSize + minSize))
  let next ← heap.load min MinorField.next
  let heap ← heap.store next MinorField.prev min
  let heap ← heap.store next MinorField.next 0
  let heap ← heap.store next MinorField.magic liballocMagic
  let heap ← heap.store next MinorField.block maj
  let heap ← heap.store next MinorField.size size
  let heap ← heap.store next MinorField.reqSize reqSize
  heap.handOut maj next size

/-- CASE 4.2, between two minors. -/
def placeBetween (heap : Liballoc) (maj min size reqSize : Nat) : Checked (Nat × Liballoc) := do
  let minSize ← heap.load min MinorField.size
  let newMin := wrap (min + minorSize + minSize)
  let heap ← heap.store newMin MinorField.magic liballocMagic
  let next ← heap.load min MinorField.next
  let heap ← heap.store newMin MinorField.next next
  let heap ← heap.store newMin MinorField.prev min
  let heap ← heap.store newMin MinorField.size size
  let heap ← heap.store newMin MinorField.reqSize reqSize
  let heap ← heap.store newMin MinorField.block maj
  let next ← heap.load min MinorField.next
  let heap ← heap.store next MinorField.prev newMin
  let heap ← heap.store min MinorField.next newMin
  heap.handOut maj newMin size

/-- No list in memory is longer, so no walk runs out of it. -/
def walkFuel : Nat := 2 ^ 66

/-- CASE 4, the loop over the minors of a block; `none` where no gap is large enough. -/
def searchMinors (maj size reqSize : Nat) : Nat → Liballoc → Nat → Checked (Option (Nat × Liballoc))
  | 0, _, _ => .error .noReturn
  | fuel + 1, heap, min =>
    if min = 0 then return none
    else do
      let next ← heap.load min MinorField.next
      let minSize ← heap.load min MinorField.size
      if next = 0 then
        let total ← heap.load maj MajorField.size
        let diff := wrapSub (wrapSub (wrapSub (wrap (maj + total)) min) minorSize) minSize
        if diff ≥ wrap (size + minorSize) then
          let placed ← heap.placeLast maj min size reqSize
          return some placed
        else searchMinors maj size reqSize fuel heap next
      else
        let diff := wrapSub (wrapSub (wrapSub next min) minorSize) minSize
        if diff ≥ wrap (size + minorSize) then
          let placed ← heap.placeBetween maj min size reqSize
          return some placed
        else searchMinors maj size reqSize fuel heap next

/-- CASES 2 to 4: one block. -/
def searchMajor (heap : Liballoc) (maj size reqSize : Nat) : Checked (Option (Nat × Liballoc)) := do
  let first ← heap.load maj MajorField.first
  if first = 0 then
    let placed ← heap.placeFirst maj size reqSize
    return some placed
  else
    let diff := wrapSub (wrapSub first maj) majorSize
    if diff ≥ wrap (size + minorSize) then
      let placed ← heap.placeFront maj size reqSize
      return some placed
    else searchMinors maj size reqSize walkFuel heap first

/-- Where a turn of the loop over the blocks goes: on to another turn, `NULL` for
the end of the loop, or to the cases behind the first. -/
inductive Turn where
  | next (maj : Nat) (startedBet : Bool)
  | look (maj : Nat)

/-- CASE 1, not enough space in the block. -/
def skipMajor (heap : Liballoc) (maj size diff : Nat) (startedBet : Bool) : Checked (Turn × Liballoc) :=
  if diff < wrap (size + minorSize) then do
    let next ← heap.load maj MajorField.next
    if next ≠ 0 then return (.next next startedBet, heap)
    else if startedBet then return (.next heap.lMemRoot false, heap)
    else
      let (next, heap) ← heap.appendNewPage maj size
      return (if next = 0 then .next 0 startedBet else .look next, heap)
  else return (.look maj, heap)

/-- CASE 5, no gap is large enough. -/
def leaveMajor (heap : Liballoc) (maj size : Nat) (startedBet : Bool) : Checked (Nat × Bool × Liballoc) := do
  let next ← heap.load maj MajorField.next
  if next ≠ 0 then return (next, startedBet, heap)
  else if startedBet then return (heap.lMemRoot, false, heap)
  else
    let (next, heap) ← heap.appendNewPage maj size
    return (next, startedBet, heap)

def mallocLoop (size reqSize : Nat) : Nat → Liballoc → Nat → Bool → Nat → Checked (Nat × Liballoc)
  | 0, _, _, _, _ => .error .noReturn
  | fuel + 1, heap, maj, startedBet, bestSize =>
    if maj = 0 then return (0, heap)
    else do
      let diff ← heap.spare maj
      let heap := if bestSize < diff then { heap with lBestBet := maj } else heap
      let bestSize := if bestSize < diff then diff else bestSize
      match ← heap.skipMajor maj size diff startedBet with
      | (.next maj startedBet, heap) => mallocLoop size reqSize fuel heap maj startedBet bestSize
      | (.look maj, heap) =>
        match ← heap.searchMajor maj size reqSize with
        | some placed => return placed
        | none =>
          let (maj, startedBet, heap) ← heap.leaveMajor maj size startedBet
          mallocLoop size reqSize fuel heap maj startedBet bestSize

/-- The search with `l_memRoot` set. It begins at the best bet if that has the room. -/
def mallocSearch (heap : Liballoc) (size reqSize : Nat) : Checked (Nat × Liballoc) :=
  if heap.lBestBet ≠ 0 then do
    let bestSize ← heap.spare heap.lBestBet
    if bestSize > wrap (size + minorSize) then mallocLoop size reqSize walkFuel heap heap.lBestBet true bestSize
    else mallocLoop size reqSize walkFuel heap heap.lMemRoot false bestSize
  else mallocLoop size reqSize walkFuel heap heap.lMemRoot false 0

/-- `liballoc_malloc` of a request whose size does not wrap to 0. -/
def mallocSized (heap : Liballoc) (size reqSize : Nat) : Checked (Nat × Liballoc) :=
  if heap.lMemRoot = 0 then do
    let (maj, heap) ← heap.allocateNewPage size
    let heap := { heap with lMemRoot := maj }
    if maj = 0 then return (0, heap) else heap.mallocSearch size reqSize
  else heap.mallocSearch size reqSize

/-- What a request is enlarged to, so that it can be aligned. -/
def paddedSize (reqSize : Nat) : Nat := wrap (reqSize + (alignment + alignInfo))

def malloc (heap : Liballoc) (reqSize : Nat) : Checked (Nat × Liballoc) :=
  if paddedSize reqSize = 0 then
    mallocSized { heap with lWarningCount := heap.lWarningCount + 1 } (paddedSize 1) 1
  else heap.mallocSized (paddedSize reqSize) reqSize

/-- The counters for a header that is none. -/
def badHeader (heap : Liballoc) (magic : Nat) : Liballoc :=
  let heap := { heap with lErrorCount := heap.lErrorCount + 1 }
  if magic % 2 ^ 24 = liballocMagic % 2 ^ 24 ∨ magic % 2 ^ 16 = liballocMagic % 2 ^ 16 ∨
    magic % 2 ^ 8 = liballocMagic % 2 ^ 8 then
    { heap with lPossibleOverruns := heap.lPossibleOverruns + 1 }
  else heap

/-- `free` of the only minor of a block: the block goes back. -/
def dropMajor (heap : Liballoc) (maj : Nat) : Checked Liballoc := do
  let next ← heap.load maj MajorField.next
  let prev ← heap.load maj MajorField.prev
  let heap := if heap.lMemRoot = maj then { heap with lMemRoot := next } else heap
  let heap := if heap.lBestBet = maj then { heap with lBestBet := 0 } else heap
  let heap ← (if prev ≠ 0 then heap.store prev MajorField.next next else .ok heap)
  let heap ← (if next ≠ 0 then heap.store next MajorField.prev prev else .ok heap)
  let size ← heap.load maj MajorField.size
  let heap := { heap with lAllocated := wrapSub heap.lAllocated size }
  let pages ← heap.load maj MajorField.pages
  heap.systemFree maj pages

/-- The two sizes are compared as `int`s. -/
def betterBet (heap : Liballoc) (maj : Nat) : Checked Liballoc :=
  if heap.lBestBet ≠ 0 then do
    let bestSize ← heap.spare heap.lBestBet
    let majSize ← heap.spare maj
    return if (BitVec.ofNat 32 bestSize).toInt < (BitVec.ofNat 32 majSize).toInt then { heap with lBestBet := maj }
      else heap
  else return heap

/-- The minor leaves the list of its block. -/
def unlinkMinor (heap : Liballoc) (maj min : Nat) : Checked Liballoc := do
  let next ← heap.load min MinorField.next
  let prev ← heap.load min MinorField.prev
  let heap ← (if next ≠ 0 then heap.store next MinorField.prev prev else .ok heap)
  let heap ← (if prev ≠ 0 then heap.store prev MinorField.next next else .ok heap)
  if prev = 0 then heap.store maj MajorField.first next else return heap

/-- `liballoc_free` behind the test of the header. -/
def freeMinor (heap : Liballoc) (min : Nat) : Checked Liballoc := do
  let maj ← heap.load min MinorField.block
  let size ← heap.load min MinorField.size
  let heap := { heap with lInuse := wrapSub heap.lInuse size }
  let usage ← heap.load maj MajorField.usage
  let heap ← heap.store maj MajorField.usage (wordSub usage (size + minorSize))
  let heap ← heap.store min MinorField.magic liballocDead
  let heap ← heap.unlinkMinor maj min
  let first ← heap.load maj MajorField.first
  if first = 0 then heap.dropMajor maj else heap.betterBet maj

def free (heap : Liballoc) (ptr : Nat) : Checked Liballoc :=
  if ptr = 0 then return { heap with lWarningCount := heap.lWarningCount + 1 }
  else do
    let ptr ← heap.unalign ptr
    let min := wrapSub ptr minorSize
    let magic ← heap.load min MinorField.magic
    if magic ≠ liballocMagic then return heap.badHeader magic
    else heap.freeMinor min

/-- `liballoc_memcpy`: word by word, then what is left byte by byte. -/
def copyWords (mem : Bytes) (target source : Nat) : Nat → Bytes
  | 0 => mem
  | words + 1 => copyWords (mem.write target 4 (mem.read source 4)) (target + 4) (source + 4) words

def liballocMemcpy (mem : Bytes) (s1 s2 n : Nat) : Bytes :=
  (copyWords mem s1 s2 (n / 4)).copy (s1 + n / 4 * 4) (s2 + n / 4 * 4) (n % 4)

/-- The part of `liballoc_realloc` for a block that has to move. Copying to `NULL` faults. -/
def moveBlock (heap : Liballoc) (p size realSize : Nat) : Checked (Nat × Liballoc) := do
  let (ptr, heap) ← heap.malloc size
  check (realSize = 0 ∨ mmapIoBase ≤ ptr) .outOfBounds
  let heap := heap.withMem (liballocMemcpy heap.kernel.vm.mem (mmapIoToPhys ptr) (mmapIoToPhys p) realSize)
  let heap ← heap.free p
  return (ptr, heap)

def realloc (heap : Liballoc) (p size : Nat) : Checked (Nat × Liballoc) :=
  if size = 0 then do
    let heap ← heap.free p
    return (0, heap)
  else if p = 0 then heap.malloc size
  else do
    let ptr ← heap.unalign p
    let min := wrapSub ptr minorSize
    let magic ← heap.load min MinorField.magic
    if magic ≠ liballocMagic then return (0, heap.badHeader magic)
    else
      let realSize ← heap.load min MinorField.reqSize
      if realSize ≥ size then
        let heap ← heap.store min MinorField.reqSize size
        return (p, heap)
      else heap.moveBlock p size realSize

def kmalloc (heap : Liballoc) (count : Nat) : Checked (Nat × Liballoc) := heap.malloc count

/-- The `memset` writes through the pointer as it is. -/
def kcalloc (heap : Liballoc) (count : Nat) : Checked (Nat × Liballoc) := do
  let (ptr, heap) ← heap.malloc count
  check (count = 0 ∨ mmapIoBase ≤ ptr) .outOfBounds
  return (ptr, heap.withMem (memset heap.kernel.vm.mem ptr 0 count))

def krealloc (heap : Liballoc) (ptr count : Nat) : Checked (Nat × Liballoc) := heap.realloc ptr count

def kfree (heap : Liballoc) (ptr : Nat) : Checked Liballoc := heap.free ptr

end Liballoc

end Navy
