import Navy.Syscall

/-! Runs of the scheduler: timer ticks, pushes and exits, each one step. Every
step leaves a record of the register frames it moved. -/

namespace Navy

/-- The arguments after the process in `sched_push_process(...)`. -/
inductive Arguments where
  | none
  | one (arg1 : Nat)
  | two (arg1 arg2 : Nat)
  | three (arg1 arg2 arg3 : Nat)
  | four (arg1 arg2 arg3 arg4 : Nat)

/-- The macro picks the function by the number of arguments. -/
def schedPushProcess (sched : Sched) (newProcess : Process) (arguments : Arguments) (answer : Option Nat) :
    Checked Sched :=
  match arguments with
  | .none => schedPushProcess1 sched newProcess answer
  | .one arg1 => schedPushProcess2 sched newProcess arg1 answer
  | .two arg1 arg2 => schedPushProcess3 sched newProcess arg1 arg2 answer
  | .three arg1 arg2 arg3 => schedPushProcess4 sched newProcess arg1 arg2 arg3 answer
  | .four arg1 arg2 arg3 arg4 => schedPushProcess5 sched newProcess arg1 arg2 arg3 arg4 answer

/-- The arguments as `rdi`, `rsi`, `rdx` and `rcx` are to hold them. -/
def Arguments.load (arguments : Arguments) (regs : Registers) : Registers :=
  match arguments with
  | .none => { regs with rdi := 0, rsi := 0, rdx := 0, rcx := 0 }
  | .one arg1 => { regs with rdi := arg1, rsi := 0, rdx := 0, rcx := 0 }
  | .two arg1 arg2 => { regs with rdi := arg1, rsi := arg2, rdx := 0, rcx := 0 }
  | .three arg1 arg2 arg3 => { regs with rdi := arg1, rsi := arg2, rdx := arg3, rcx := 0 }
  | .four arg1 arg2 arg3 arg4 => { regs with rdi := arg1, rsi := arg2, rdx := arg3, rcx := arg4 }

/-- `regs` of a tick is the frame the interrupt pushed. A sweep of `task_slayer`
reads the table and releases memory; it writes nothing the scheduler reads. -/
inductive SchedAction where
  | tick (regs : Registers)
  | force
  | push (pml rip bstack : Nat) (stack : Range) (arguments : Arguments) (answer : Option Nat)
  | exit (rbx : Nat)
  | sweep

inductive FrameRecord where
  | pushed (pid : Nat) (frame : Registers)
  | switched (out : Nat) (saved : Registers) (into : Nat) (installed : Registers)
  | other

def schedAct (sched : Sched) : SchedAction → Checked (FrameRecord × Sched)
  | .tick regs => do
    let (installed, after) ← yieldTask sched regs
    let switches := sched.tick + 1 ≥ switchTick + 1
    return (if switches then .switched sched.currentPid regs after.currentPid installed else .other, after)
  | .force => return (.other, forceYield sched)
  | .push pml rip bstack stack arguments answer => do
    let process := newTask pml rip bstack stack
    let after ← schedPushProcess sched process arguments answer
    return (.pushed sched.processes.length (arguments.load process.regs), after)
  | .exit rbx => do
    let after ← syscallExit sched rbx
    return (.other, after)
  | .sweep => return (.other, sched)

/-- States of runs from `sched_init` on whose steps all meet a condition. The
kernel's own process starts with the frame `kcalloc` left. -/
inductive SchedRun (meets : Sched → SchedAction → Prop) : Sched → List FrameRecord → Prop where
  | boot {sched : Sched} {cr3 : Nat} {answer : Option Nat} (ran : schedInit .zero cr3 answer = .ok sched) :
      SchedRun meets sched [.pushed 0 .zero]
  | step {sched after : Sched} {history : List FrameRecord} {action : SchedAction} {record : FrameRecord}
      (before : SchedRun meets sched history) (fine : meets sched action)
      (ran : schedAct sched action = .ok (record, after)) : SchedRun meets after (history ++ [record])

/-- The frame last built for a process or captured from it. -/
def lastFrame (history : List FrameRecord) : Nat → Option Registers :=
  history.foldl (fun frames record =>
    match record with
    | .pushed pid frame => Function.update frames pid (some frame)
    | .switched out saved _ _ => Function.update frames out (some saved)
    | .other => frames) fun _ => none

end Navy
