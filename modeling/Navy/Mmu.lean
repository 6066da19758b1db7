import Navy.Vmm

/-! What the processor makes of the page tables: the four-level walk from the
table CR3 names, and the bytes a user program can reach through it. -/

namespace Navy

/-- The physical address an entry holds. -/
def PmlEntry.address (entry : PmlEntry) : Nat := wrap (entry.physical <<< 12)

structure Translation where
  physical : Nat
  writable : Bool
  user : Bool
deriving DecidableEq, Repr

/-- The entry at `index` of the table at physical address `table`, if present. -/
def presentEntry (mem : Bytes) (table index : Nat) : Option PmlEntry :=
  let entry := PmlEntry.ofRaw (mem.read (table + 8 * index) 8)
  if entry.present then some entry else none

/-- A page is writable, or open to user mode, when all four levels say so. -/
def walk (mem : Bytes) (root virt : Nat) : Option Translation := do
  let pml4e ← presentEntry mem root (pml4GetIndex virt)
  let pml3e ← presentEntry mem pml4e.address (pml3GetIndex virt)
  let pml2e ← presentEntry mem pml3e.address (pml2GetIndex virt)
  let pml1e ← presentEntry mem pml2e.address (pml1GetIndex virt)
  return {
    physical := pml1e.address
    writable := pml4e.readWrite && pml3e.readWrite && pml2e.readWrite && pml1e.readWrite
    user := pml4e.user && pml3e.user && pml2e.user && pml1e.user }

/-- The physical address behind a user-mode access, if the access is allowed. -/
def userAddress (mem : Bytes) (root virt : Nat) : Option Nat :=
  match walk mem root virt with
  | some translation => if translation.user then some (translation.physical + virt % pageSize) else none
  | none => none

def userByte (mem : Bytes) (root virt : Nat) : Option (BitVec 8) :=
  (userAddress mem root virt).map mem

/-- The lower half, and the two halves together: the addresses the processor accepts. -/
def UserHalf (virt : Nat) : Prop := virt < 2 ^ 47
def Canonical (virt : Nat) : Prop := virt < 2 ^ 47 ∨ 2 ^ 64 - 2 ^ 47 ≤ virt ∧ virt < 2 ^ 64

instance : DecidablePred Canonical :=
  fun virt => inferInstanceAs (Decidable (virt < 2 ^ 47 ∨ 2 ^ 64 - 2 ^ 47 ≤ virt ∧ virt < 2 ^ 64))

/-- The physical address behind an access in kernel mode. The user bit is no
obstacle to it, and every entry the kernel makes is writable. -/
def kernelAddress (mem : Bytes) (root virt : Nat) : Option Nat :=
  if Canonical virt then (walk mem root virt).map fun translation => translation.physical + virt % pageSize else none

/-- What a load in kernel mode finds, `none` for a page fault. -/
def kernelByte (mem : Bytes) (root virt : Nat) : Option (BitVec 8) := (kernelAddress mem root (wrap virt)).map mem

end Navy
