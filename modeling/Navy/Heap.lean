import Navy.Syscall

/-! The kernel heap (`kmalloc.c`, and the hooks of `compat.c`). liballoc is taken
by what it does to the machine: it asks the hooks for blocks, gives blocks back,
and writes inside the blocks it has. -/

namespace Navy

/-- The scheduler and the memory together. -/
structure Kernel where
  sched : Sched
  vm : Vm

/-- The space `liballoc_alloc` maps into: the running process's, once there is one. -/
def heapSpace (kernel : Kernel) : Checked Nat :=
  if kernel.sched.schedIsInit then do
    let current ← schedCurrentProcess kernel.sched
    return current.pml
  else return kernel.vm.kernelPml4

/-- `size` is a number of pages. -/
def liballocAlloc (kernel : Kernel) (size : Nat) : Checked (Nat × Kernel) := do
  let isUser := true
  let space ← heapSpace kernel
  let (physRange, vm) ← kernel.vm.alloc .heap (size * pageSize)
  check (0 < physRange.length) .assertion
  let vm ← vmmMapRange vm space ⟨mmapPhysToIo physRange.base, physRange.length⟩ physRange isUser
  return (mmapPhysToIo physRange.base, { kernel with vm })

/-- The pointer and the number of pages go to `pmm_free` as they are. -/
def liballocFree (kernel : Kernel) (ptr pages : Nat) : Checked Kernel := do
  let pmm ← pmmFree kernel.vm.pmm ⟨ptr, pages⟩
  return { kernel with vm := { kernel.vm with pmm } }

/-- A physical byte in a block that `liballoc_alloc` got. -/
def heapOwned (vm : Vm) (place : Nat) : Bool :=
  vm.owners.any fun entry => entry.1 == .heap && entry.2.base ≤ place && place < entry.2.base + entry.2.length

/-- One thing liballoc does on its way through a call. -/
inductive HeapAction where
  | alloc (size : Nat)
  | free (ptr pages : Nat)
  | write (place : Nat) (value : BitVec 8)

def HeapAction.allocates : HeapAction → Bool
  | .alloc _ => true
  | _ => false

/-- Only blocks it was given are given back, and only they are written to. -/
def heapAct (kernel : Kernel) : HeapAction → Checked Kernel
  | .alloc size => do
    let (_, kernel) ← liballocAlloc kernel size
    return kernel
  | .free ptr pages => do
    check (kernel.vm.owners.any fun entry => entry.1 == .heap && mmapPhysToIo entry.2.base == ptr) .outOfBounds
    liballocFree kernel ptr pages
  | .write place value => do
    check (heapOwned kernel.vm place) .outOfBounds
    return { kernel with vm := { kernel.vm with mem := Function.update kernel.vm.mem place value } }

/-- What one call of liballoc did, and the pointer it came back with. -/
structure HeapCall where
  actions : List HeapAction
  pointer : Nat

def HeapCall.run (call : HeapCall) (kernel : Kernel) : Checked Kernel := call.actions.foldlM heapAct kernel

/-- The block handed out lies in the heap. A failed `liballoc_alloc` asserts, so
there is no `NULL`. -/
def liballocMalloc (kernel : Kernel) (size : Nat) (call : HeapCall) : Checked (Nat × Kernel) := do
  let kernel ← call.run kernel
  check ((List.range size).all fun offset => heapOwned kernel.vm (mmapIoToPhys call.pointer + offset)) .outOfBounds
  return (call.pointer, kernel)

def kmalloc (kernel : Kernel) (count : Nat) (call : HeapCall) : Checked (Nat × Kernel) :=
  liballocMalloc kernel count call

def kcalloc (kernel : Kernel) (count : Nat) (call : HeapCall) : Checked (Nat × Kernel) := do
  let (ptr, kernel) ← liballocMalloc kernel count call
  return (ptr, { kernel with vm := { kernel.vm with mem := memset kernel.vm.mem ptr 0 count } })

/-- Growing an array keeps what it held; liballoc moves it. -/
def krealloc (kernel : Kernel) (count : Nat) (call : HeapCall) : Checked (Nat × Kernel) :=
  liballocMalloc kernel count call

/-- `free` is `kfree` here. `NULL` is ignored, and giving a block back asks for none. -/
def kfree (kernel : Kernel) (ptr : Nat) (call : HeapCall) : Checked Kernel :=
  if ptr = 0 then return kernel
  else do
    check (call.actions.all fun action => !action.allocates) .outOfBounds
    call.run kernel

end Navy
