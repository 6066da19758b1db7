import Navy.Vec
import Navy.Vmm

/-! The process table and the scheduler (`sched.c`), with the context functions
of `arch.c`. A process is named by its index in the table, which stands for the
pointer kept there. -/

namespace Navy

/-- `struct interrupt_stackframe`. -/
structure Registers where
  r15 : Nat
  r14 : Nat
  r13 : Nat
  r12 : Nat
  r11 : Nat
  r10 : Nat
  r9 : Nat
  r8 : Nat
  rbp : Nat
  rdi : Nat
  rsi : Nat
  rdx : Nat
  rcx : Nat
  rbx : Nat
  rax : Nat
  intno : Nat
  err : Nat
  rip : Nat
  cs : Nat
  rflags : Nat
  rsp : Nat
  ss : Nat
deriving DecidableEq, Repr

/-- The frame `kcalloc` leaves. -/
def Registers.zero : Registers := ⟨0, 0, 0, 0, 0, 0, 0, 0, 0, 0, 0, 0, 0, 0, 0, 0, 0, 0, 0, 0, 0, 0⟩

inductive TaskState where
  | running
  | idle
  | waitingForDeath
  | dead
deriving DecidableEq, Repr

structure Ipc where
  sender : Nat
  receiver : Nat
  data : Nat
deriving DecidableEq, Repr

structure Process where
  syscallKernelStack : Nat
  syscallUserStack : Nat
  syscallKernelBstack : Nat
  stack : Range
  regs : Registers
  pid : Nat
  pml : Nat
  state : TaskState
  returnValue : BitVec 32
  mailbox : Vec Ipc

/-- A `process_t` as `kcalloc` returns it. -/
def Process.zero : Process where
  syscallKernelStack := 0
  syscallUserStack := 0
  syscallKernelBstack := 0
  stack := ⟨0, 0⟩
  regs := .zero
  pid := 0
  pml := 0
  state := .running
  returnValue := 0
  mailbox := vecInit

def kernelStackSize : Nat := 16384
def userStackBase : Nat := 0xc0000000

/-- The content `task_init` gives `new_task` from what it allocated. -/
def newTask (pml rip bstack : Nat) (stack : Range) : Process :=
  { Process.zero with
    pml
    state := .running
    regs := { Registers.zero with
      cs := 0x23
      ss := 0x1b
      rip
      rsp := userStackBase + kernelStackSize
      rbp := userStackBase
      rflags := 0x202 }
    syscallKernelBstack := bstack
    syscallKernelStack := wrap (bstack + kernelStackSize)
    stack
    mailbox := vecInit }

/-- The statics of `sched.c`, and the processor registers a switch loads. The
GS bases hold the pointer to a process. -/
structure Sched where
  processes : Vec Process
  tick : Nat
  currentPid : Nat
  lastPid : Nat
  schedIsInit : Bool
  cr3 : Nat
  gsBase : Nat
  kernGsBase : Nat

def switchTick : Nat := 9

/-- `current_pid = -1` before `++current_pid` starts again at 0. -/
def nextPid (sched : Sched) : Sched :=
  { sched with currentPid :=
      if sched.currentPid + 1 = sched.processes.length then 0 else sched.currentPid + 1 }

def archContextSave (sched : Sched) (ctx : Nat) (regs : Registers) : Checked Sched := do
  let process ← sched.processes.get ctx
  return { sched with processes := sched.processes.modify ctx { process with regs } }

def archContextSwitch (sched : Sched) (ctx : Nat) : Checked (Registers × Sched) := do
  let process ← sched.processes.get ctx
  return (process.regs, { sched with gsBase := ctx, kernGsBase := ctx })

/-- The search loop of `yield_task`; a full round without a running process
would never end. -/
def seekRunning : Nat → Sched → Checked Sched
  | 0, _ => .error .noReturn
  | fuel + 1, sched => do
    let sched := nextPid sched
    let process ← sched.processes.get sched.currentPid
    if process.state ≠ .running then seekRunning fuel sched else return sched

def yieldTask (sched : Sched) (regs : Registers) : Checked (Registers × Sched) := do
  let sched := { sched with tick := sched.tick + 1 }
  if sched.tick ≥ switchTick + 1 then
    let sched := { sched with tick := 0 }
    let sched ← archContextSave sched sched.currentPid regs
    let sched ← seekRunning sched.processes.length sched
    let (regs, sched) ← archContextSwitch sched sched.currentPid
    let process ← sched.processes.get sched.currentPid
    return (regs, { sched with cr3 := vmmSwitchSpace process.pml })
  else return (regs, sched)

def forceYield (sched : Sched) : Sched := { sched with tick := switchTick }

/-- `answer` is what growing the table gave. -/
def schedPushProcess5 (sched : Sched) (newProcess : Process) (arg1 arg2 arg3 arg4 : Nat) (answer : Option Nat) :
    Checked Sched := do
  let newProcess := { newProcess with
    pid := sched.lastPid
    regs := { newProcess.regs with rdi := arg1, rsi := arg2, rdx := arg3, rcx := arg4 } }
  let processes ← vecPush sched.processes newProcess answer
  return { sched with processes, lastPid := sched.lastPid + 1 }

def schedPushProcess1 (sched : Sched) (newProcess : Process) (answer : Option Nat) : Checked Sched :=
  schedPushProcess5 sched newProcess 0 0 0 0 answer

def schedPushProcess2 (sched : Sched) (newProcess : Process) (arg1 : Nat) (answer : Option Nat) : Checked Sched :=
  schedPushProcess5 sched newProcess arg1 0 0 0 answer

def schedPushProcess3 (sched : Sched) (newProcess : Process) (arg1 arg2 : Nat) (answer : Option Nat) : Checked Sched :=
  schedPushProcess5 sched newProcess arg1 arg2 0 0 answer

def schedPushProcess4 (sched : Sched) (newProcess : Process) (arg1 arg2 arg3 : Nat) (answer : Option Nat) :
    Checked Sched :=
  schedPushProcess5 sched newProcess arg1 arg2 arg3 0 answer

def schedCurrentProcess (sched : Sched) : Checked Process := sched.processes.get sched.currentPid

/-- The index stands for the pointer, `none` for `NULL`. -/
def schedGetByPid (sched : Sched) (pid : Nat) : Checked (Option Nat) :=
  if sched.processes.length > pid then do
    let process ← sched.processes.get pid
    return if process.state = .running then some pid else none
  else return none

/-- The statics before `sched_init`. -/
def Sched.zero : Sched := ⟨vecInit, 0, 0, 1, false, 0, 0, 0⟩

/-- `cr3` is the kernel's table at that point. -/
def schedInit (sched : Sched) (cr3 : Nat) (answer : Option Nat) : Checked Sched := do
  let kernelProcess := { Process.zero with pid := 0, state := .running, pml := mmapPhysToIo cr3 }
  let processes ← vecPush vecInit kernelProcess answer
  return { sched with processes, schedIsInit := true, cr3 }

end Navy
