import Navy.Syscall

/-! Runs whose system calls are single steps. Each step leaves a record, so a
history says which process sent and received what. -/

namespace Navy

/-- A creation is the part of `load_elf_module` the scheduler sees, followed by `sched_push_process`. -/
inductive Action where
  | create (pml rip bstack : Nat) (stack : Range) (arg1 arg2 arg3 arg4 : Nat) (answer : Option Nat)
  | exit (rbx : Nat)
  | tick (regs : Registers)
  | send (msg : Ipc) (answer : Option Nat)
  | receiveSync
  | receiveOneshot

/-- `msg` of a send is what the caller asked for, before the kernel fills in the sender. -/
inductive Record where
  | sent (caller : Nat) (msg : Ipc)
  | received (caller : Nat) (msg : Ipc)
  | other
deriving DecidableEq

def Record.answered (caller : Nat) : Option Ipc → Record
  | some msg => .received caller msg
  | none => .other

/-- An exited process stays in its last system call, so only running ones call. -/
def act (sched : Sched) : Action → Checked (Record × Sched)
  | .create pml rip bstack stack arg1 arg2 arg3 arg4 answer => do
    let sched ← schedPushProcess5 sched (newTask pml rip bstack stack) arg1 arg2 arg3 arg4 answer
    return (.other, sched)
  | .tick regs => do
    let (_, sched) ← yieldTask sched regs
    return (.other, sched)
  | .exit rbx => do
    calls sched
    let sched ← syscallExit sched rbx
    return (.other, sched)
  | .send msg answer => do
    calls sched
    let caller ← syscallGetpid sched
    let (_, sched) ← syscallIpcsend sched msg answer
    return (.sent caller msg, sched)
  | .receiveSync => do
    calls sched
    let caller ← syscallGetpid sched
    let (got, sched) ← syscallIpcrcvSync sched
    return (.answered caller got, sched)
  | .receiveOneshot => do
    calls sched
    let caller ← syscallGetpid sched
    let (got, sched) ← syscallIpcrcvOneshot sched
    return (.answered caller got, sched)
where
  calls (sched : Sched) : Checked Unit := do
    let current ← schedCurrentProcess sched
    check (current.state = .running) .assertion

/-- One step of a run with its history. -/
def turn (run : Sched × List Record) (action : Action) : Checked (Sched × List Record) := do
  let (record, sched) ← act run.1 action
  return (sched, run.2 ++ [record])

/-- A whole run from `sched_init` on. -/
def runActions (cr3 : Nat) (answer : Option Nat) (actions : List Action) : Checked (Sched × List Record) := do
  let sched ← schedInit .zero cr3 answer
  actions.foldlM turn (sched, [])

end Navy
