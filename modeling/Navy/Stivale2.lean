import Navy.Handover
import Navy.Strings

/-! What the boot loader says (`stivale2_handover.c`), and the lookup of modules
by name (`handover.c`). The list of tags is followed to its end. -/

namespace Navy

structure Stivale2MmapEntry where
  base : Nat
  length : Nat
  type : Nat

def stivale2ModuleStringSize : Nat := 128

structure Stivale2Module where
  (begin end' : Nat)
  string : List (BitVec 8)
  size : string.length = stivale2ModuleStringSize

/-- The tags, by their identifier. The `smp` tag is only remembered, the others
that are not named here are only logged. -/
inductive Stivale2Tag where
  | memmap (memmap : List Stivale2MmapEntry)
  | modules (modules : List Stivale2Module)
  | smp
  | rsdp (rsdt : Nat)
  | framebuffer (framebuffer : Framebuffer)
  | unknown (identifier : Nat)

def limitMemoryMapSize : Nat := 64

/-- The sizes of `modules` and of `name` in `handover.h`. -/
def handoverModules : Nat := 64
def moduleNameSize : Nat := 128

def parseMmapEntry (this : Handover) (mmapEntry : Stivale2MmapEntry) : Checked Handover := do
  check (this.mmap.length < limitMemoryMapSize) .outOfBounds
  let usable := mmapEntry.type = stivale2MmapUsable
  let memoryUsable := if usable then wrap (this.memoryUsable + mmapEntry.length) else this.memoryUsable
  let entry : MmapEntry := ⟨⟨mmapEntry.base, mmapEntry.length⟩, mmapEntry.type % 2 ^ 16, usable⟩
  return { this with memoryUsable, mmap := this.mmap ++ [entry] }

def parseMmap (this : Handover) (memmap : List Stivale2MmapEntry) : Checked Handover := do
  let this ← memmap.foldlM parseMmapEntry this
  return { this with usablePages := this.memoryUsable / pageSize }

/-- What the kernel stack holds when a round of `parse_module` declares its
locals: the bytes that `module.name` begins with, and those behind `m`. -/
structure Stack where
  name : List (BitVec 8)
  beyond : List (BitVec 8)
  size : name.length = moduleNameSize

/-- Only the first half of the name is cleared, and the terminator is not copied. -/
def parseModuleEntry (stack : Nat → Stack) (handover : Handover) (m : Stivale2Module) : Checked Handover := do
  let stack := stack handover.modules.length
  let addr : Range := ⟨m.begin, wrapSub m.end' m.begin⟩
  let name := List.replicate 64 0 ++ stack.name.drop 64
  let source := m.string ++ stack.beyond
  let length ← strlen source
  check (length ≤ moduleNameSize) .outOfBounds
  let name := source.take length ++ name.drop length
  check (handover.modules.length < handoverModules) .outOfBounds
  return { handover with modules := handover.modules ++ [⟨name, addr⟩] }

/-- `stack i` is the stack in the round of the `i`-th module. -/
def parseModule (stack : Nat → Stack) (handover : Handover) (mod : List Stivale2Module) : Checked Handover :=
  mod.foldlM (parseModuleEntry stack) handover

def parseTag (stack : Nat → Stack) (handover : Handover) : Stivale2Tag → Checked Handover
  | .memmap memmap => parseMmap handover memmap
  | .modules modules => parseModule stack handover modules
  | .smp => return handover
  | .rsdp rsdt => return { handover with rsdt }
  | .framebuffer framebuffer => return { handover with framebuffer }
  | .unknown _ => return handover

def stivale2ParseHeader (stack : Nat → Stack) (tags : List Stivale2Tag) : Checked Handover :=
  tags.foldlM (parseTag stack) ⟨0, 0, 0, ⟨0, 0, 0, 0⟩, [], []⟩

/-- The loop of `handover_find_module`. -/
def findModule (name : List (BitVec 8)) : List HandoverModule → Checked Range
  | [] => return ⟨0, 0⟩
  | entry :: rest => do
    let order ← strcmp name entry.name
    if order = 0 then return entry.addr else findModule name rest

def handoverFindModule (handover : Handover) (name : List (BitVec 8)) : Checked Range :=
  findModule name handover.modules

end Navy
