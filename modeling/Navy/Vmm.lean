import Navy.Pmm

/-! Address spaces (`vmm.c`): four-level page tables kept in physical memory. The
code reaches them through the direct map; here they are read and written as
physical memory, so the direct map is taken to stay as `vmm_init` made it.
`owners` is a ghost ledger, read by no code: who each outstanding `pmm_alloc`
was made for. -/

namespace Navy

structure PmlEntry where
  present : Bool
  readWrite : Bool
  user : Bool
  caching : Bool
  cachingDisable : Bool
  accessed : Bool
  dirty : Bool
  hugePage : Bool
  globalPage : Bool
  available : Nat
  physical : Nat
deriving DecidableEq, Repr

/-- The 64-bit view of the union, least significant field first. -/
def PmlEntry.raw (entry : PmlEntry) : Nat :=
  entry.present.toNat + 2 * (entry.readWrite.toNat + 2 * (entry.user.toNat + 2 * (entry.caching.toNat +
    2 * (entry.cachingDisable.toNat + 2 * (entry.accessed.toNat + 2 * (entry.dirty.toNat +
    2 * (entry.hugePage.toNat + 2 * (entry.globalPage.toNat + 2 * (entry.available + 8 * entry.physical)))))))))

def PmlEntry.ofRaw (raw : Nat) : PmlEntry where
  present := raw.testBit 0
  readWrite := raw.testBit 1
  user := raw.testBit 2
  caching := raw.testBit 3
  cachingDisable := raw.testBit 4
  accessed := raw.testBit 5
  dirty := raw.testBit 6
  hugePage := raw.testBit 7
  globalPage := raw.testBit 8
  available := raw / 2 ^ 9 % 8
  physical := raw / 2 ^ 12

def pmlMakeEntry (physical : Nat) (isUser : Bool) : PmlEntry where
  physical := wrap physical >>> 12
  user := isUser
  readWrite := true
  present := true
  caching := false
  cachingDisable := false
  accessed := false
  dirty := false
  hugePage := false
  globalPage := false
  available := 0

/-- `(struct pml_entry){}`. -/
def emptyEntry : PmlEntry := .ofRaw 0

inductive Owner where
  | root
  | table
  | segment (pml : Nat)
  | stack (pml : Nat)
  | heap
deriving DecidableEq, Repr

structure Vm where
  mem : Bytes
  pmm : Pmm
  kernelPml4 : Nat
  owners : List (Owner × Range)

@[irreducible] def memset (mem : Bytes) (target : Nat) (value : BitVec 8) (count : Nat) : Bytes :=
  mem.fill (mmapIoToPhys target) count value

/-- `pml->entries[index]`, with `pml` a direct-map pointer. -/
def pmlEntry (mem : Bytes) (pml index : Nat) : PmlEntry :=
  .ofRaw (mem.read (mmapIoToPhys pml + 8 * index) 8)

def setPmlEntry (mem : Bytes) (pml index : Nat) (entry : PmlEntry) : Bytes :=
  mem.write (mmapIoToPhys pml + 8 * index) 8 entry.raw

/-- `pmm_alloc`, with the ledger told who asked. -/
def Vm.alloc (vm : Vm) (owner : Owner) (amount : Nat) : Checked (Range × Vm) := do
  let (range, pmm) ← pmmAlloc vm.pmm amount
  return (range, { vm with pmm, owners := (owner, range) :: vm.owners })

/-- `pmm_free`, with the ledger told whose range it was. -/
def Vm.free (vm : Vm) (owner : Owner) (range : Range) : Checked Vm := do
  let pmm ← pmmFree vm.pmm range
  return { vm with pmm, owners := vm.owners.erase (owner, range) }

def pmlxGetIndex (addr level : Nat) : Nat :=
  (wrap addr &&& (0x1ff <<< (12 + level * 9))) >>> (12 + level * 9)

def pml4GetIndex (addr : Nat) : Nat := pmlxGetIndex addr 3
def pml3GetIndex (addr : Nat) : Nat := pmlxGetIndex addr 2
def pml2GetIndex (addr : Nat) : Nat := pmlxGetIndex addr 1
def pml1GetIndex (addr : Nat) : Nat := pmlxGetIndex addr 0

def vmmGetPmlAlloc (vm : Vm) (pml index : Nat) (isUser : Bool) : Checked (Range × Vm) := do
  let entry := pmlEntry vm.mem pml index
  if entry.present then
    return (⟨mmapPhysToIo (wrap (entry.physical <<< 12)), pageSize⟩, vm)
  else
    let (targetRange, vm) ← vm.alloc .table pageSize
    check (0 < targetRange.length) .assertion
    let mem := memset vm.mem (mmapPhysToIo targetRange.base) 0 pageSize
    let mem := setPmlEntry mem pml index (pmlMakeEntry targetRange.base isUser)
    return (⟨mmapPhysToIo targetRange.base, pageSize⟩, { vm with mem })

def vmmGetPml (mem : Bytes) (pml index : Nat) : Range :=
  let entry := pmlEntry mem pml index
  if entry.present then ⟨mmapPhysToIo (wrap (entry.physical <<< 12)), pageSize⟩ else ⟨0, 0⟩

def vmmMapPage (vm : Vm) (pml virt phys : Nat) (isUser : Bool) : Checked Vm := do
  let (pml3Range, vm) ← vmmGetPmlAlloc vm pml (pml4GetIndex virt) true
  let (pml2Range, vm) ← vmmGetPmlAlloc vm pml3Range.base (pml3GetIndex virt) true
  let (pml1Range, vm) ← vmmGetPmlAlloc vm pml2Range.base (pml2GetIndex virt) true
  return { vm with mem := setPmlEntry vm.mem pml1Range.base (pml1GetIndex virt) (pmlMakeEntry phys isUser) }

/-- The trailing `vmm_flush` touches the translation cache only. -/
def vmmMapRange (vm : Vm) (pml : Nat) (virt phys : Range) (isUser : Bool) : Checked Vm := do
  check (phys.length = virt.length) .assertion
  (List.range (virt.length / pageSize)).foldlM (fun vm i =>
    let physaddr := wrap (i * pageSize + alignDown phys.base pageSize)
    let virtaddr := wrap (i * pageSize + alignDown virt.base pageSize)
    vmmMapPage vm pml virtaddr physaddr isUser) vm

def vmmUnmapPage (vm : Vm) (context vaddr : Nat) : Checked Vm := do
  let pml3Range := vmmGetPml vm.mem context (pml4GetIndex vaddr)
  check (pml3Range.length ≠ 0) .assertion
  let pml2Range := vmmGetPml vm.mem pml3Range.base (pml3GetIndex vaddr)
  check (pml2Range.length ≠ 0) .assertion
  let pml1Range := vmmGetPml vm.mem pml2Range.base (pml2GetIndex vaddr)
  check (pml1Range.length ≠ 0) .assertion
  return { vm with mem := setPmlEntry vm.mem pml1Range.base (pml1GetIndex vaddr) emptyEntry }

def vmmUnmap (vm : Vm) (context : Nat) (virtualRange : Range) : Checked Vm :=
  (List.range (virtualRange.length / pageSize)).foldlM (fun vm i =>
    vmmUnmapPage vm context (wrap (i * pageSize + alignDown virtualRange.base pageSize))) vm

/-- `vmm_switch_space`: the value loaded into CR3. -/
def vmmSwitchSpace (pml : Nat) : Nat := mmapIoToPhys pml

def vmmSpaceCreate (vm : Vm) : Checked (Nat × Vm) := do
  let (phys, vm) ← vm.alloc .root pageSize
  check (0 < phys.length) .assertion
  let pmlTable := mmapPhysToIo phys.base
  let mem := memset vm.mem pmlTable 0 pageSize
  let mem := (List.range (512 - 255)).foldl (fun mem i =>
    setPmlEntry mem pmlTable (255 + i) (pmlEntry mem vm.kernelPml4 (255 + i))) mem
  return (pmlTable, { vm with mem })

def vmmSpaceDestroy (vm : Vm) (space : Nat) : Checked Vm :=
  { vm with mem := memset vm.mem space 0 pageSize }.free .root ⟨mmapIoToPhys space, pageSize⟩

/-- One round of the loop of `vmm_init` over the memory map. -/
def vmmInitEntry (vm : Vm) (mmap : MmapEntry) : Checked Vm := do
  let base := alignDown mmap.range.base pageSize
  let length := wrap (alignUp mmap.range.length pageSize + pageSize)
  let vm ← if mmap.type = stivale2MmapKernelAndModules then
      vmmMapRange vm vm.kernelPml4 ⟨mmapPhysToKernel base, length⟩ ⟨base, length⟩ false
    else pure vm
  vmmMapRange vm vm.kernelPml4 ⟨mmapPhysToIo base, length⟩ ⟨base, length⟩ false

def vmmInit (mem : Bytes) (pmm : Pmm) (handover : Handover) : Checked Vm := do
  let (kernelRange, vm) ← Vm.alloc ⟨mem, pmm, 0, []⟩ .root pageSize
  check (0 < kernelRange.length) .assertion
  let kernelPml4 := mmapPhysToIo kernelRange.base
  let vm := { vm with mem := memset vm.mem kernelPml4 0 pageSize, kernelPml4 }
  let vm ← vmmMapRange vm kernelPml4 ⟨mmapPhysToIo 0, 0xffffffff⟩ ⟨0, 0xffffffff⟩ false
  handover.mmap.foldlM vmmInitEntry vm

end Navy
