import Navy.Sched

/-! The system calls on processes and messages (`syscall.c`). A caller's `ipc_t`
lies in its own memory, so a call takes its content and gives it back. -/

namespace Navy

/-- The caller never returns from this call: it spins until the timer switches. -/
def syscallExit (sched : Sched) (rbx : Nat) : Checked Sched := do
  let current ← schedCurrentProcess sched
  let current := { current with returnValue := BitVec.ofNat 32 rbx, state := .waitingForDeath }
  return { sched with processes := sched.processes.modify sched.currentPid current }

def syscallGetpid (sched : Sched) : Checked Nat := do
  let current ← schedCurrentProcess sched
  return current.pid

/-- The part of `syscall_ipcsend` up to and including `vec_expand_`. -/
def ipcsendExpand (sched : Sched) (msg : Ipc) (answer : Option Nat) : Checked (Ipc × Nat × Sched) := do
  let current ← schedCurrentProcess sched
  let msg := { msg with sender := current.pid }
  match ← schedGetByPid sched msg.receiver with
  | none => .error .assertion
  | some proc =>
    let process ← sched.processes.get proc
    let mailbox ← vecExpand process.mailbox answer
    return (msg, proc, { sched with processes := sched.processes.modify proc { process with mailbox } })

/-- The rest of `vec_push`. -/
def ipcsendStore (sched : Sched) (proc : Nat) (msg : Ipc) : Checked Sched := do
  let process ← sched.processes.get proc
  let mailbox ← vecStore process.mailbox msg
  return { sched with processes := sched.processes.modify proc { process with mailbox } }

def syscallIpcsend (sched : Sched) (msg : Ipc) (answer : Option Nat) : Checked (Ipc × Sched) := do
  let (msg, proc, sched) ← ipcsendExpand sched msg answer
  let sched ← ipcsendStore sched proc msg
  return (msg, sched)

/-- The test the receive calls make on the caller's own mailbox. -/
def ipcrcvTest (sched : Sched) : Checked Bool := do
  let proc ← schedCurrentProcess sched
  return proc.mailbox.length ≠ 0

def ipcrcvPop (sched : Sched) : Checked (Ipc × Sched) := do
  let proc ← schedCurrentProcess sched
  let (msg, mailbox) ← vecPop proc.mailbox
  return (msg, { sched with processes := sched.processes.modify sched.currentPid { proc with mailbox } })

/-- One turn of `syscall_ipcrcv_sync`: a message, or another round of its loop. -/
def syscallIpcrcvSync (sched : Sched) : Checked (Option Ipc × Sched) := do
  if ← ipcrcvTest sched then
    let (msg, sched) ← ipcrcvPop sched
    return (some msg, sched)
  else return (none, forceYield sched)

def syscallIpcrcvOneshot (sched : Sched) : Checked (Option Ipc × Sched) := do
  if ← ipcrcvTest sched then
    let (msg, sched) ← ipcrcvPop sched
    return (some msg, sched)
  else return (none, sched)

end Navy
