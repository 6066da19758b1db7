import Navy.Elf
import Navy.Scheduling
import Mathlib.Logic.Relation

/-! The kernel as a whole: boot, and from there loads, pushes, messages, exits,
timer ticks and the turns of `task_slayer`, in any order. -/

namespace Navy

/-- The interrupt stacks the task state segment names. -/
structure Tss where
  ist0 : Nat
  ist1 : Nat
  rsp0 : Nat

def intstackInit (kernel : Kernel) (ist0 ist1 rsp0 : HeapCall) : Checked (Tss × Kernel) := do
  let (ist0, kernel) ← kmalloc kernel kernelStackSize ist0
  let (ist1, kernel) ← kmalloc kernel kernelStackSize ist1
  let (rsp0, kernel) ← kmalloc kernel kernelStackSize rsp0
  return (⟨wrap (ist0 + kernelStackSize), wrap (ist1 + kernelStackSize), wrap (rsp0 + kernelStackSize)⟩, kernel)

/-- `sched_init` with the heap behind it. CR3 is what `vmm_init` left there. -/
def schedInitHeap (kernel : Kernel) (block table : HeapCall) : Checked Kernel := do
  let (_, kernel) ← kcalloc kernel processSize block
  let (answer, kernel) ← krealloc kernel 8 table
  let sched ← schedInit kernel.sched (vmmSwitchSpace kernel.vm.kernelPml4) (some answer)
  return { kernel with sched }

structure System where
  kernel : Kernel
  /-- What `load_elf_module` gave, until it is pushed. -/
  loaded : List Process
  /-- The index the loop of `task_slayer` is at. -/
  cursor : Nat
  /-- Ghost: the kernel stacks and mailboxes that were not given back to the heap. -/
  blocks : List Nat
  /-- Ghost: the processes `task_slayer` tore down. -/
  torn : List Nat

/-- The heap hands out no pointer twice. -/
def System.take (system : System) (pointer : Nat) : Checked System := do
  check (pointer ≠ 0 ∧ pointer ∉ system.blocks) .outOfBounds
  return { system with blocks := pointer :: system.blocks }

def System.give (system : System) (pointer : Nat) : System :=
  { system with blocks := system.blocks.erase pointer }

/-- `arch_init` and `kmain` up to the first load, as far as memory is concerned. -/
def boot (mem : Bytes) (handover : Handover) (ist0 ist1 rsp0 block table : HeapCall) : Checked System := do
  let (pmm, handover) ← pmmInit handover
  let vm ← vmmInit mem pmm handover
  let (_, kernel) ← intstackInit ⟨.zero, vm⟩ ist0 ist1 rsp0
  let kernel ← schedInitHeap kernel block table
  return ⟨kernel, [], 0, [], []⟩

/-- The `realloc` of `vec_expand_`, where one is due. -/
def growVec {T : Type} (kernel : Kernel) (vec : Vec T) (memsz : Nat) (call : HeapCall) :
    Checked (Option Nat × Kernel) :=
  if vec.length + 1 > vec.capacity then do
    let (ptr, kernel) ← krealloc kernel (vec.grown * memsz) call
    return (some ptr, kernel)
  else return (none, kernel)

/-- `sizeof(ipc_t)`. -/
def ipcSize : Nat := 24

/-- A mailbox that grows gives its old block back. -/
def System.expand (system : System) (mailbox : Vec Ipc) (call : HeapCall) : Checked (Option Nat × System) := do
  match ← growVec system.kernel mailbox ipcSize call with
  | (none, kernel) => return (none, { system with kernel })
  | (some ptr, kernel) =>
    let system ← { system with kernel }.take ptr
    return (some ptr, system.give mailbox.pointer)

/-- System calls come from running processes; the kernel's own makes none. -/
def System.enter (system : System) : Checked Unit := do
  let current ← schedCurrentProcess system.kernel.sched
  check (current.state = .running ∧ system.kernel.sched.currentPid ≠ 0) .assertion

inductive SystemAction where
  | load (elf : Range) (block bstack : HeapCall)
  | push (index : Nat) (arguments : Arguments) (table : HeapCall)
  | tick (regs : Registers)
  | send (msg : Ipc) (mailbox : HeapCall)
  | receive (sync : Bool)
  | exit (rbx : Nat)
  /-- One test of the loop in `task_slayer`, with its body where it holds. -/
  | slay (bstack mailbox : HeapCall)

def System.load (system : System) (elf : Range) (block bstack : HeapCall) : Checked System := do
  let (process, kernel) ← (loadElfModule system.kernel elf block bstack).outcome
  { system with kernel, loaded := system.loaded ++ [process] }.take bstack.pointer

def System.push (system : System) (index : Nat) (arguments : Arguments) (table : HeapCall) : Checked System :=
  match system.loaded[index]? with
  | none => .error .outOfBounds
  | some process => do
    let (answer, kernel) ← growVec system.kernel system.kernel.sched.processes 8 table
    let sched ← schedPushProcess kernel.sched process arguments answer
    return { system with kernel := { kernel with sched }, loaded := system.loaded.eraseIdx index }

def System.send (system : System) (msg : Ipc) (mailbox : HeapCall) : Checked System := do
  system.enter
  match ← schedGetByPid system.kernel.sched msg.receiver with
  | none => .error .assertion
  | some proc =>
    let target ← system.kernel.sched.processes.get proc
    let (answer, system) ← system.expand target.mailbox mailbox
    let (_, sched) ← syscallIpcsend system.kernel.sched msg answer
    return { system with kernel := { system.kernel with sched } }

def System.receive (system : System) (sync : Bool) : Checked System := do
  system.enter
  let call := if sync then syscallIpcrcvSync else syscallIpcrcvOneshot
  let (_, sched) ← call system.kernel.sched
  return { system with kernel := { system.kernel with sched } }

/-- The body of the `if` in `task_slayer`. -/
def reap (kernel : Kernel) (proc : Process) (bstack mailbox : HeapCall) : Checked Kernel := do
  let kernel ← kfree kernel proc.syscallKernelBstack bstack
  let vm ← kernel.vm.free (.stack proc.pml) proc.stack
  let vm ← vmmSpaceDestroy vm proc.pml
  kfree { kernel with vm } proc.mailbox.pointer mailbox

def System.tearDown (system : System) (proc : Process) (bstack mailbox : HeapCall) : Checked System := do
  let kernel ← reap system.kernel proc bstack mailbox
  return ({ system with kernel, torn := system.cursor :: system.torn }.give proc.syscallKernelBstack).give proc.mailbox.pointer

/-- The process the loop of `task_slayer` is about to look at. -/
def System.due (system : System) : Checked (Option Process) :=
  if system.cursor < system.kernel.sched.processes.length then do
    let proc ← system.kernel.sched.processes.get system.cursor
    return some proc
  else return none

/-- The slayer runs in the kernel's own process; past the end its outer loop
begins again. -/
def System.slay (system : System) (bstack mailbox : HeapCall) : Checked System := do
  check (system.kernel.sched.currentPid = 0) .assertion
  match ← system.due with
  | none => return { system with cursor := 0 }
  | some proc =>
    if proc.state = .waitingForDeath then do
      let system ← system.tearDown proc bstack mailbox
      return { system with cursor := system.cursor + 1 }
    else return { system with cursor := system.cursor + 1 }

def System.act (system : System) : SystemAction → Checked System
  | .load elf block bstack => system.load elf block bstack
  | .push index arguments table => system.push index arguments table
  | .tick regs => do
    let (_, sched) ← yieldTask system.kernel.sched regs
    return { system with kernel := { system.kernel with sched } }
  | .send msg mailbox => system.send msg mailbox
  | .receive sync => system.receive sync
  | .exit rbx => do
    system.enter
    let sched ← syscallExit system.kernel.sched rbx
    return { system with kernel := { system.kernel with sched } }
  | .slay bstack mailbox => system.slay bstack mailbox

/-- A memory map as the boot protocol gives it, for memory the direct map has an
address for. -/
structure Handover.Fits (handover : Handover) : Prop where
  low : ∀ mmap ∈ handover.mmap, mmap.range.base + mmap.range.length ≤ 2 ^ 46
  aligned : ∀ mmap ∈ handover.mmap, mmap.isFree → mmap.range.base % 4096 = 0 ∧ mmap.range.length % 4096 = 0

/-- The states of runs from boot on whose steps all meet a condition. -/
inductive System.Run (meets : System → SystemAction → Prop) : System → Prop where
  | boot {mem : Bytes} {handover : Handover} {ist0 ist1 rsp0 block table : HeapCall} {system : System}
      (fits : handover.Fits) (ran : Navy.boot mem handover ist0 ist1 rsp0 block table = .ok system) : Run meets system
  | step {system after : System} {action : SystemAction} (before : Run meets system) (fine : meets system action)
      (ran : system.act action = .ok after) : Run meets after

/-- What steps that all meet a condition lead to. -/
def System.Leads (meets : System → SystemAction → Prop) : System → System → Prop :=
  Relation.ReflTransGen fun before after => ∃ action, meets before action ∧ before.act action = .ok after

theorem System.Run.mono {meets looser : System → SystemAction → Prop} {system : System} (run : System.Run meets system)
    (weaker : ∀ system action, meets system action → looser system action) : System.Run looser system := by
  induction run with
  | boot fits ran => exact .boot fits ran
  | step _ fine ran ih => exact .step ih (weaker _ _ fine) ran

theorem System.Run.extend {meets : System → SystemAction → Prop} {system after : System} (run : System.Run meets system)
    (leads : System.Leads meets system after) : System.Run meets after := by
  induction leads with
  | refl => exact run
  | tail _ step ih =>
    obtain ⟨action, fine, ran⟩ := step
    exact .step ih fine ran

end Navy
