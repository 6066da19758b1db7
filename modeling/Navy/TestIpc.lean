import Navy.Fmt
import Navy.Preempt
import Navy.Library.Paths

/-! The test program (`pkg/test/main.c`) with the library functions it is linked
with, started three times by `kmain`. Of a process there is the place in its
program and what it has printed; the rest is the kernel's, under preemption. -/

namespace Navy

/-- A string literal, without its terminator. -/
def ascii (literal : String) : List (BitVec 8) := literal.toList.map fun letter => BitVec.ofNat 8 letter.toNat

namespace TestIpc
open Paths

/-- `log_impl_userspace`, with what its `getpid` answered. -/
def logImplUserspace (locals : Nat → BitVec 8) (pid : Nat) (filename : Text) (lineNbr : Nat) (format : String)
    (args : List FmtValue) :
    Printing Unit := do
  printFormat locals (ascii "\x1b[92m(\x7b\x7d) \x7b\x7d:\x7b\x7d\x1b[0m " ++ [0])
    [.decimal (BitVec.ofNat 64 pid), .string filename, .decimal (BitVec.ofNat 64 lineNbr)]
  printFormat locals (ascii format ++ [0]) args
  callback (ascii "\n" ++ [0])

/-- What the callback, here `sys_log`, is called with. -/
def logged (printing : Printing Unit) : Checked (List (List (BitVec 8))) := do
  printing.outcome
  return printing.events.filterMap fun event => match event with
    | .callback s => some s
    | .read _ => none

/-- `__FILENAME__`. -/
def filename : Text := ⟨ascii "main.c", by decide⟩

/-- Where a process stands in its program. -/
inductive Point where
  /-- `kmain` with so many processes left to push; behind it `task_slayer`, which
  writes nothing the scheduler reads. -/
  | kmain (left : Nat)
  /-- At the `getpid` of `main`. -/
  | main
  | receiver
  /-- In the loop, with no sender yet. -/
  | receiverOneshot
  | send (msg : Ipc) (left : List Ipc)
  /-- At the `getpid` of a `log`. -/
  | log (line : Nat) (format : String) (args : List FmtValue)
  | print (text : List (BitVec 8)) (left : List (List (BitVec 8)))
  /-- `main` has returned 0 to `_start`. -/
  | exit
  | exited

/-- Behind the sends there is nothing left to do. -/
def sending : List Ipc → Point
  | [] => .exit
  | msg :: left => .send msg left

def printing : List (List (BitVec 8)) → Point
  | [] => .exit
  | text :: left => .print text left

def sender : Point := sending [⟨0, 1, 0xdeadbeef⟩, ⟨0, 2, 0xcafebabe⟩]

def mainSwitch : Nat → Point
  | 1 => .receiver
  | 2 => .receiverOneshot
  | 3 => sender
  | _ => .exit

def gotFormat : String := "Got IPC from \x7b\x7d with value \x7bx\x7d"
def gotOneshotFormat : String := "Got IPC ONESHOT from \x7b\x7d with value \x7bx\x7d"

def gotIpc (msg : Ipc) : Point :=
  .log 27 gotFormat [.decimal (BitVec.ofNat 64 msg.sender), .decimal (BitVec.ofNat 64 msg.data)]

/-- The test of the loop in `receiver_oneshot`. -/
def gotIpcOneshot (msg : Ipc) : Point :=
  if msg.sender = 0 then .receiverOneshot
  else .log 34 gotOneshotFormat [.decimal (BitVec.ofNat 64 msg.sender), .decimal (BitVec.ofNat 64 msg.data)]

structure World where
  kernel : Preempted
  point : Nat → Point
  /-- What each process has printed. -/
  output : Nat → List (BitVec 8)

/-- What is left open: what a load gave, what growing a vector gave, what
the local arrays of `itoa` hold. -/
structure Chance where
  pml : Nat
  rip : Nat
  bstack : Nat
  stack : Range
  answer : Option Nat
  locals : Nat → BitVec 8

def World.pid (world : World) : Nat := world.kernel.sched.currentPid

def World.reach (world : World) (point : Point) : World :=
  { world with point := Function.update world.point world.pid point }

/-- The next part of a receive: a test, or the pop that a test led to. -/
def receive (kernel : Preempted) (sync : Bool) : Checked (Option Ipc × Preempted) :=
  match kernel.phase kernel.sched.currentPid with
  | .popping => do
    let (msg, _) ← ipcrcvPop kernel.sched
    let kernel ← move kernel .pop
    return (some msg, kernel)
  | _ => do
    let kernel ← move kernel (.test sync)
    return (none, kernel)

/-- A receive, and where its message leads to. -/
def World.await (world : World) (sync : Bool) (got : Ipc → Point) : Checked World := do
  let (msg, kernel) ← receive world.kernel sync
  match msg with
  | none => return { world with kernel }
  | some msg => return { world.reach (got msg) with kernel }

/-- The next part of a send, and whether it was the last. -/
def send (kernel : Preempted) (msg : Ipc) (answer : Option Nat) : Checked (Bool × Preempted) :=
  match kernel.phase kernel.sched.currentPid with
  | .sending .. => do
    let kernel ← move kernel .store
    return (true, kernel)
  | _ => do
    let kernel ← move kernel (.check msg answer)
    return (false, kernel)

/-- The current process goes on. -/
def World.go (world : World) (chance : Chance) : Checked World :=
  match world.point world.pid with
  | .kmain 0 => return world
  | .kmain (left + 1) => do
    let kernel ← move world.kernel (.create chance.pml chance.rip chance.bstack chance.stack 0 0 0 0 chance.answer)
    return { world.reach (.kmain left) with kernel }
  | .main => do
    world.kernel.enter
    let pid ← syscallGetpid world.kernel.sched
    return world.reach (mainSwitch pid)
  | .receiver => world.await true gotIpc
  | .receiverOneshot => world.await false gotIpcOneshot
  | .send msg left => do
    let (sent, kernel) ← send world.kernel msg chance.answer
    if sent then return { world.reach (sending left) with kernel }
    else return { world with kernel }
  | .log line format args => do
    world.kernel.enter
    let pid ← syscallGetpid world.kernel.sched
    let texts ← logged (logImplUserspace chance.locals pid filename line format args)
    return world.reach (printing texts)
  | .print text left => do
    world.kernel.enter
    return { world.reach (printing left) with
      output := Function.update world.output world.pid (world.output world.pid ++ text) }
  | .exit => do
    let kernel ← move world.kernel (.exit 0)
    return { world.reach .exited with kernel }
  -- `syscall_exit` spins
  | .exited => return world

inductive Event where
  | tick (regs : Registers)
  | go (chance : Chance)

def World.step (world : World) : Event → Checked World
  | .tick regs => do
    let kernel ← move world.kernel (.tick regs)
    return { world with kernel }
  | .go chance => world.go chance

/-- Process 0 is in `kmain`, behind its `sched_init`. -/
def World.start (sched : Sched) : World where
  kernel := .start sched
  point pid := if pid = 0 then .kmain 3 else .main
  output _ := []

def Runs : World → List Event → World → Prop := Path fun world event after => world.step event = .ok after

/-- The worlds that some order of ticks and turns leads to. -/
def Reached (world : World) : Prop :=
  ∃ cr3 answer sched events, schedInit .zero cr3 answer = .ok sched ∧ Runs (.start sched) events world

end TestIpc

end Navy
