import Navy.System
import Navy.Mmu

/-! User programs and the memory they hand to the kernel: an `ipc_t` is named by
its address in the caller's space, and the kernel reads and writes it there. The
scheduler's own data stay beside memory, so a write to the heap changes none of them. -/

namespace Navy

/-- The space is the one in CR3. A page that is not there is a fault in the kernel. -/
def Kernel.loadByte (kernel : Kernel) (virt : Nat) : Checked (BitVec 8) :=
  match kernelAddress kernel.vm.mem kernel.sched.cr3 virt with
  | some place => .ok (kernel.vm.mem place)
  | none => .error .outOfBounds

def Kernel.storeByte (kernel : Kernel) (virt : Nat) (value : BitVec 8) : Checked Kernel :=
  match kernelAddress kernel.vm.mem kernel.sched.cr3 virt with
  | some place => .ok { kernel with vm := { kernel.vm with mem := Function.update kernel.vm.mem place value } }
  | none => .error .outOfBounds

/-- A little-endian number, which may lie in two pages. -/
def Kernel.load (kernel : Kernel) (virt : Nat) : Nat → Checked Nat
  | 0 => return 0
  | count + 1 => do
    let byte ← kernel.loadByte virt
    let rest ← kernel.load (wrap (virt + 1)) count
    return byte.toNat + 256 * rest

def Kernel.store (kernel : Kernel) (virt : Nat) : Nat → Nat → Checked Kernel
  | 0, _ => return kernel
  | count + 1, value => do
    let kernel ← kernel.storeByte virt (BitVec.ofNat 8 value)
    kernel.store (wrap (virt + 1)) count (value / 256)

def Kernel.loadIpc (kernel : Kernel) (msg : Nat) : Checked Ipc := do
  let sender ← kernel.load msg 8
  let receiver ← kernel.load (wrap (msg + 8)) 8
  let data ← kernel.load (wrap (msg + 16)) 8
  return ⟨sender, receiver, data⟩

def Kernel.storeIpc (kernel : Kernel) (msg : Nat) (content : Ipc) : Checked Kernel := do
  let kernel ← kernel.store msg 8 content.sender
  let kernel ← kernel.store (wrap (msg + 8)) 8 content.receiver
  kernel.store (wrap (msg + 16)) 8 content.data

/-- `syscall_ipcsend` with `rbx` as it comes. -/
def System.sendAt (system : System) (rbx : Nat) (call : HeapCall) : Checked System := do
  system.enter
  let current ← schedCurrentProcess system.kernel.sched
  let kernel ← system.kernel.store rbx 8 current.pid
  let receiver ← kernel.load (wrap (rbx + 8)) 8
  match ← schedGetByPid kernel.sched receiver with
  | none => .error .assertion
  | some proc =>
    let target ← kernel.sched.processes.get proc
    let (answer, system) ← { system with kernel }.expand target.mailbox call
    let msg ← system.kernel.loadIpc rbx
    let mailbox ← vecPush target.mailbox msg answer
    let processes := system.kernel.sched.processes.modify proc { target with mailbox }
    return { system with kernel := { system.kernel with sched := { system.kernel.sched with processes } } }

/-- `syscall_ipcrcv_sync` up to its first yield, or `syscall_ipcrcv_oneshot`. -/
def System.receiveAt (system : System) (sync : Bool) (rbx : Nat) : Checked System := do
  system.enter
  let call := if sync then syscallIpcrcvSync else syscallIpcrcvOneshot
  let (msg, sched) ← call system.kernel.sched
  let kernel := { system.kernel with sched }
  match msg with
  | none => return { system with kernel }
  | some msg =>
    let kernel ← kernel.storeIpc rbx msg
    return { system with kernel }

/-- A store by the running program, in user mode. -/
def System.poke (system : System) (virt : Nat) (value : BitVec 8) : Checked System := do
  system.enter
  check (Canonical virt) .outOfBounds
  match walk system.kernel.vm.mem system.kernel.sched.cr3 virt with
  | some target =>
    check (target.user = true ∧ target.writable = true) .outOfBounds
    let mem := Function.update system.kernel.vm.mem (target.physical + virt % pageSize) value
    return { system with kernel := { system.kernel with vm := { system.kernel.vm with mem } } }
  | none => .error .outOfBounds

inductive UserAction where
  /-- A step without the programs' memory; messages go by content there. -/
  | kernel (action : SystemAction)
  | poke (virt : Nat) (value : BitVec 8)
  | send (rbx : Nat) (mailbox : HeapCall)
  | receive (sync : Bool) (rbx : Nat)

def System.userAct (system : System) : UserAction → Checked System
  | .kernel action => system.act action
  | .poke virt value => system.poke virt value
  | .send rbx mailbox => system.sendAt rbx mailbox
  | .receive sync rbx => system.receiveAt sync rbx

/-- The states of runs with programs in them, on whose steps all meet a condition. -/
inductive System.UserRun (meets : System → UserAction → Prop) : System → Prop where
  | boot {mem : Bytes} {handover : Handover} {ist0 ist1 rsp0 block table : HeapCall} {system : System}
      (fits : handover.Fits) (ran : Navy.boot mem handover ist0 ist1 rsp0 block table =
        .ok system) : UserRun meets system
  | step {system after : System} {action : UserAction} (before : UserRun meets system) (fine : meets system action)
      (ran : system.userAct action = .ok after) : UserRun meets after

theorem System.UserRun.mono {meets looser : System → UserAction → Prop} {system : System}
    (run : System.UserRun meets system) (weaker : ∀ system action, meets system action → looser system action) :
    System.UserRun looser system := by
  induction run with
  | boot fits ran => exact .boot fits ran
  | step _ fine ran ih => exact .step ih (weaker _ _ fine) ran

end Navy
