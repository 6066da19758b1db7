import Navy.Heap
import Navy.Library.Traced

/-! The module loader (`elf.c`) and the creation of a process (`task_init`).
A module lies where the boot loader put it, in the direct map. The loader leaves
a trace of what it reads of the module, what it writes of a segment and which
pages of the new space it maps; no code reads the trace. -/

namespace Navy

inductive Access where
  | read (address count : Nat)
  /-- Bytes of a segment, with the frames it was given. -/
  | write (address count : Nat) (frames : Range)
  | map (virt : Nat)

abbrev Loads := Traced Access Fault

/-- Offsets of `Elf64_Ehdr` and `Elf64_Phdr`. -/
def eEntry : Nat := 24
def ePhoff : Nat := 32
def ePhentsize : Nat := 54
def ePhnum : Nat := 56
def pType : Nat := 0
def pOffset : Nat := 8
def pVaddr : Nat := 16
def pFilesz : Nat := 32
def pMemsz : Nat := 40

def ptLoad : Nat := 1

/-- A member of `count` bytes at `offset` behind a pointer. -/
@[irreducible] def member (mem : Bytes) (pointer offset count : Nat) : Nat :=
  mem.read (mmapIoToPhys (wrap (pointer + offset))) count

def readMember (mem : Bytes) (pointer offset count : Nat) : Loads Nat := do
  Traced.emit (.read (wrap (pointer + offset)) count)
  return member mem pointer offset count

/-- Copies nothing from `NULL`. -/
def memcpy (mem : Bytes) (dest src count : Nat) : Bytes :=
  if src = 0 then mem else mem.copy (mmapIoToPhys dest) (mmapIoToPhys src) count

/-- `arch_vmm_map` of a segment, page by page. -/
def mapSegment (vm : Vm) (pml : Nat) (virt phys : Range) : Loads Vm := do
  Traced.silent (check (phys.length = virt.length) .assertion)
  (List.range (virt.length / pageSize)).foldlM (fun vm i => do
    let physaddr := wrap (i * pageSize + alignDown phys.base pageSize)
    let virtaddr := wrap (i * pageSize + alignDown virt.base pageSize)
    Traced.emit (.map virtaddr)
    Traced.silent (vmmMapPage vm pml virtaddr physaddr true)) vm

/-- What `memcpy` of a segment touches. -/
def copyAccesses (addr : Range) (src filesz : Nat) : Loads Unit :=
  if src = 0 then return ()
  else do
    Traced.emit (.read src filesz)
    Traced.emit (.write (mmapPhysToIo addr.base) filesz addr)

/-- The copy and the zero fill of a segment; the header is read again for the fill. -/
def copySegment (elf : Range) (phdr : Nat) (addr : Range) (vm : Vm) : Loads Vm := do
  let offset ← readMember vm.mem phdr pOffset 8
  let filesz ← readMember vm.mem phdr pFilesz 8
  let src := wrap (elf.base + offset)
  copyAccesses addr src filesz
  let vm := { vm with mem := memcpy vm.mem (mmapPhysToIo addr.base) src filesz }
  let filesz ← readMember vm.mem phdr pFilesz 8
  let memsz ← readMember vm.mem phdr pMemsz 8
  let target := wrap (mmapPhysToIo addr.base + filesz)
  let rest := wrapSub memsz filesz
  Traced.emit (.write target rest addr)
  return { vm with mem := memset vm.mem target 0 rest }

/-- The body of the loop for a `PT_LOAD` header. -/
def loadSegment (elf : Range) (pml phdr : Nat) (vm : Vm) : Loads Vm := do
  let memsz ← readMember vm.mem phdr pMemsz 8
  let (addr, vm) ← Traced.silent (vm.alloc (.segment pml) (alignUp memsz pageSize))
  Traced.silent (check (addr.length ≠ 0) .assertion)
  let vaddr ← readMember vm.mem phdr pVaddr 8
  let vm ← mapSegment vm pml ⟨vaddr, addr.length⟩ addr
  copySegment elf phdr addr vm

/-- Headers of other types are skipped. -/
def loadHeader (elf : Range) (pml phdr type : Nat) (vm : Vm) : Loads Vm :=
  if type = ptLoad then loadSegment elf pml phdr vm else return vm

/-- The loop over the program headers, which tests `e_phnum` and adds
`e_phentsize` anew in every round. `fuel` is `2^16 - i`, and `e_phnum` has 16 bits. -/
def loadSegments (elf : Range) (pml : Nat) : Nat → Nat → Vm → Loads Vm
  | 0, _, vm => return vm
  | fuel + 1, phdr, vm => do
    let phnum ← readMember vm.mem elf.base ePhnum 2
    if 2 ^ 16 - (fuel + 1) < phnum then
      let type ← readMember vm.mem phdr pType 4
      let vm ← loadHeader elf pml phdr type vm
      let phentsize ← readMember vm.mem elf.base ePhentsize 2
      loadSegments elf pml fuel (wrap (phdr + phentsize)) vm
    else return vm

/-- `sizeof(process_t)`. -/
def processSize : Nat := 272

/-- What the two calls into the heap did comes as `block` and `bstack`. -/
def taskInit (kernel : Kernel) (pml rip : Nat) (block bstack : HeapCall) : Checked (Process × Kernel) := do
  let (_, kernel) ← kcalloc kernel processSize block
  let (bstack, kernel) ← kmalloc kernel kernelStackSize bstack
  let (stack, vm) ← kernel.vm.alloc (.stack pml) kernelStackSize
  check (stack.length ≠ 0) .assertion
  let vm ← vmmMapRange vm pml ⟨userStackBase, kernelStackSize⟩ stack true
  return (newTask pml rip bstack stack, { kernel with vm })

def loadElfModule (kernel : Kernel) (elf : Range) (block bstack : HeapCall) : Loads (Process × Kernel) := do
  let phoff ← readMember kernel.vm.mem elf.base ePhoff 8
  let phdr := wrap (elf.base + phoff)
  let (pml, vm) ← Traced.silent (vmmSpaceCreate kernel.vm)
  let vm ← loadSegments elf pml (2 ^ 16) phdr vm
  let entry ← readMember vm.mem elf.base eEntry 8
  Traced.silent (taskInit { kernel with vm } pml entry block bstack)

end Navy
