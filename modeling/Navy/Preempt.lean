import Navy.Syscall

/-! System calls the timer may interrupt. `syscall_init` leaves the flag mask 0,
so a call runs with interrupts on and another process can run between the two
halves of `vec_push`, and between the test and the pop of a receive. -/

namespace Navy

/-- Where a process stands in its call. -/
inductive Phase where
  | user
  /-- `vec_expand_` is done, the store is not. -/
  | sending (proc : Nat) (msg : Ipc)
  /-- The mailbox was found not empty. -/
  | popping

def Phase.sends (pid : Nat) : Phase → Bool
  | .sending proc _ => proc == pid
  | _ => false

/-- `sent` and `received` keep, for every process, what was stored in its mailbox and what it took out. -/
structure Preempted where
  sched : Sched
  phase : Nat → Phase
  sent : Nat → List Ipc
  received : Nat → List Ipc

/-- What the processor does until the timer may interrupt it again. A wait in
`ipc_rcv_sync` tests again in a later move. -/
inductive Move where
  | create (pml rip bstack : Nat) (stack : Range) (arg1 arg2 arg3 arg4 : Nat) (answer : Option Nat)
  | exit (rbx : Nat)
  | tick (regs : Registers)
  | check (msg : Ipc) (answer : Option Nat)
  | store
  | test (sync : Bool)
  | pop

/-- A call begins in user code of a running process. -/
def Preempted.enter (state : Preempted) : Checked Unit := do
  let current ← schedCurrentProcess state.sched
  check (current.state = .running) .assertion
  match state.phase state.sched.currentPid with
  | .user => return ()
  | _ => .error .assertion

def Preempted.become (state : Preempted) (phase : Phase) : Preempted :=
  { state with phase := Function.update state.phase state.sched.currentPid phase }

def move (state : Preempted) : Move → Checked Preempted
  | .create pml rip bstack stack arg1 arg2 arg3 arg4 answer => do
    let sched ← schedPushProcess5 state.sched (newTask pml rip bstack stack) arg1 arg2 arg3 arg4 answer
    return { state with sched }
  | .exit rbx => do
    state.enter
    let sched ← syscallExit state.sched rbx
    return { state with sched }
  | .tick regs => do
    let (_, sched) ← yieldTask state.sched regs
    return { state with sched }
  | .check msg answer => do
    state.enter
    let (msg, proc, sched) ← ipcsendExpand state.sched msg answer
    return { state.become (.sending proc msg) with sched }
  | .store =>
    match state.phase state.sched.currentPid with
    | .sending proc msg => do
      let sched ← ipcsendStore state.sched proc msg
      return { state.become .user with sched, sent := Function.update state.sent proc (state.sent proc ++ [msg]) }
    | _ => .error .assertion
  | .test sync => do
    state.enter
    if ← ipcrcvTest state.sched then return state.become .popping
    else return { state with sched := if sync then forceYield state.sched else state.sched }
  | .pop =>
    match state.phase state.sched.currentPid with
    | .popping => do
      let pid := state.sched.currentPid
      let (msg, sched) ← ipcrcvPop state.sched
      return { state.become .user with sched, received := Function.update state.received pid (state.received pid ++ [msg]) }
    | _ => .error .assertion

def Preempted.start (sched : Sched) : Preempted := ⟨sched, fun _ => .user, fun _ => [], fun _ => []⟩

/-- How many of the first `count` processes stand between the check and the store of a send to `pid`. -/
def inFlight (phase : Nat → Phase) (count pid : Nat) : Nat :=
  (List.range count).countP fun sender => (phase sender).sends pid

/-- The capacity a check leaves has room for its message and for every other
send to the same mailbox under way. -/
def Roomy (state : Preempted) : Move → Prop
  | .check msg _ => ∀ target, state.sched.processes.get msg.receiver = .ok target →
      target.mailbox.length + inFlight state.phase state.sched.processes.length msg.receiver < target.mailbox.grown
  | _ => True

instance (state : Preempted) : (next : Move) → Decidable (Roomy state next)
  | .check msg _ =>
    match found : state.sched.processes.get msg.receiver with
    | .ok target => decidable_of_iff
        (target.mailbox.length + inFlight state.phase state.sched.processes.length msg.receiver < target.mailbox.grown)
        ⟨fun room _ same => Except.ok.inj (found.symm.trans same) ▸ room, fun roomy => roomy target found⟩
    | .error _ => isTrue fun _ same => nomatch found.symm.trans same
  | .create .. | .exit _ | .tick _ | .store | .test _ | .pop => isTrue trivial

/-- The states of runs from `sched_init` on whose moves all meet a condition. -/
inductive PreemptedRun (meets : Preempted → Move → Prop) : Preempted → Prop where
  | boot {sched : Sched} {cr3 : Nat} {answer : Option Nat} (ran : schedInit .zero cr3 answer = .ok sched) :
      PreemptedRun meets (.start sched)
  | step {state after : Preempted} {next : Move} (before : PreemptedRun meets state) (fine : meets state next)
      (ran : move state next = .ok after) : PreemptedRun meets after

end Navy
