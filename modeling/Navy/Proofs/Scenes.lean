import Navy.Preempt
import Navy.Proofs.Switching
import Navy.Proofs.Preemption

/-! The kernel as preempted programs see it: who runs, what the mailboxes hold and
where every process stands in its call. Each move has one lemma that says what it
makes of that, and one that says when it comes back. -/

namespace Navy
open Outcome

structure Scene where
  states : List TaskState
  /-- Oldest first. -/
  boxes : Nat → List Ipc
  phase : Nat → Phase

def Scene.reach (scene : Scene) (pid : Nat) (phase : Phase) : Scene :=
  { scene with phase := Function.update scene.phase pid phase }

theorem set_found {T : Type} {items : List T} {pid : Nat} {item : T} (found : items[pid]? = some item) :
    items.set pid item = items := by
  obtain ⟨inside, rfl⟩ := List.getElem?_eq_some_iff.mp found
  exact List.set_getElem_self inside

@[simp] theorem Scene.reach_self (scene : Scene) (pid : Nat) (phase : Phase) :
    (scene.reach pid phase).phase pid = phase :=
  Function.update_self _ _ _

theorem Scene.reach_other {pid other : Nat} (scene : Scene) (apart : other ≠ pid) (phase : Phase) :
    (scene.reach pid phase).phase other = scene.phase other := Function.update_of_ne apart _ _

/-- Going on to something else than a send begins none. -/
theorem Scene.flight_kept {scene : Scene} {pid sender target : Nat} {phase : Phase} {msg : Ipc}
    (apart : ∀ other more, phase ≠ .sending other more)
    (flight : (scene.reach pid phase).phase sender = .sending target msg) :
    sender ≠ pid ∧ scene.phase sender = .sending target msg := by
  by_cases same : sender = pid
  · subst same
    rw [scene.reach_self] at flight
    exact absurd flight (apart target msg)
  · rw [scene.reach_other same] at flight
    exact ⟨same, flight⟩

/-- One process, with all that is seen of it. -/
def Scene.put (scene : Scene) (pid : Nat) (state : TaskState) (phase : Phase) (box : List Ipc) : Scene where
  states := scene.states.set pid state
  boxes := Function.update scene.boxes pid box
  phase := Function.update scene.phase pid phase

section Put

variable {scene : Scene} {pid other : Nat} {state : TaskState} {phase : Phase} {box : List Ipc}

@[simp] theorem Scene.put_length : (scene.put pid state phase box).states.length = scene.states.length :=
  List.length_set

@[simp] theorem Scene.put_phase : (scene.put pid state phase box).phase pid = phase := Function.update_self _ _ _

@[simp] theorem Scene.put_box : (scene.put pid state phase box).boxes pid = box := Function.update_self _ _ _

theorem Scene.put_other (apart : other ≠ pid) : (scene.put pid state phase box).states[other]? = scene.states[other]? ∧
    (scene.put pid state phase box).phase other = scene.phase other ∧ (scene.put pid state phase box).boxes other =
      scene.boxes other :=
  ⟨List.getElem?_set_ne (Ne.symm apart), Function.update_of_ne apart _ _, Function.update_of_ne apart _ _⟩

end Put

theorem Scene.put_reach {scene : Scene} {pid : Nat} {state : TaskState}
    (found : scene.states[pid]? = some state) (phase : Phase) :
    scene.put pid state phase (scene.boxes pid) = scene.reach pid phase := by
  unfold Scene.put
  rw [set_found found, Function.update_eq_self]
  rfl

theorem Scene.put_self {scene : Scene} {pid : Nat} {state : TaskState} (found : scene.states[pid]? = some state) :
    scene.put pid state (scene.phase pid) (scene.boxes pid) = scene := by
  rw [Scene.put_reach found]
  unfold Scene.reach
  rw [Function.update_eq_self]

namespace Preempted

structure Seen (kernel : Preempted) (scene : Scene) (table : List Process) : Prop where
  valid : Table kernel.sched table
  states : table.map Process.state = scene.states
  boxes : ∀ (pid : Nat) (process : Process), table[pid]? = some process → process.mailbox.Shows (scene.boxes pid)
  phase : kernel.phase = scene.phase
  room : ∀ sender target msg, scene.phase sender = .sending target msg →
    ∃ process : Process, table[target]? = some process ∧ process.mailbox.length < process.mailbox.capacity
  early : kernel.sched.tick ≤ switchTick

def Shows (kernel : Preempted) (scene : Scene) : Prop := ∃ table, kernel.Seen scene table

/-- The current process keeps the processor, and its turn becomes no longer. -/
structure Stays (kernel after : Preempted) : Prop where
  current : after.sched.currentPid = kernel.sched.currentPid
  tick : kernel.sched.tick ≤ after.sched.tick

variable {kernel after : Preempted} {scene scene' : Scene} {table : List Process} {process next : Process} {pid : Nat}

theorem Seen.state (seen : kernel.Seen scene table) (found : table[pid]? = some process) :
    scene.states[pid]? = some process.state := by
  rw [← seen.states, List.getElem?_map, found]
  rfl

theorem Seen.current (seen : kernel.Seen scene table) : kernel.sched.currentPid < scene.states.length := by
  rw [← seen.states, List.length_map]
  exact seen.valid.current

theorem Seen.found (seen : kernel.Seen scene table) (state : scene.states[pid]? = some .running) :
    ∃ process : Process, table[pid]? = some process ∧ process.state = .running := by
  rw [← seen.states, List.getElem?_map] at state
  exact Option.map_eq_some_iff.mp state

theorem Shows.phase (shows : kernel.Shows scene) : kernel.phase = scene.phase := by
  obtain ⟨table, seen⟩ := shows
  exact seen.phase

theorem Shows.ring (shows : kernel.Shows scene) :
    kernel.sched.ring = ⟨scene.states.length, fun pid => scene.states[pid]? = some .running,
      kernel.sched.currentPid⟩ := by
  obtain ⟨table, seen⟩ := shows
  have alive : Runnable kernel.sched = fun pid => scene.states[pid]? = some .running := by
    funext pid
    apply propext
    rw [seen.valid.runnable, ← seen.states, List.getElem?_map, Option.map_eq_some_iff]
  unfold Sched.ring
  rw [alive, seen.valid.shows.length, ← seen.states, List.length_map]

theorem Seen.put (seen : kernel.Seen scene table) (found : table[pid]? = some process)
    (valid : Table after.sched (table.set pid next)) (states : scene'.states = scene.states.set pid next.state)
    (box : next.mailbox.Shows (scene'.boxes pid))
    (others : ∀ other, other ≠ pid → scene'.boxes other = scene.boxes other)
    (phase : after.phase = scene'.phase)
    (room : ∀ sender msg, scene'.phase sender = .sending pid msg → next.mailbox.length < next.mailbox.capacity)
    (flights : ∀ sender target msg, target ≠ pid → scene'.phase sender = .sending target msg →
      scene.phase sender = .sending target msg)
    (early : after.sched.tick ≤ switchTick) : after.Seen scene' (table.set pid next) := by
  have inside := (List.getElem?_eq_some_iff.mp found).1
  refine ⟨valid, ?_, fun other found' member => ?_, phase, fun sender target msg flight => ?_, early⟩
  · rw [states, ← seen.states, List.map_set]
  · by_cases same : other = pid
    · subst same
      rw [List.getElem?_set_self inside] at member
      rw [← Option.some.inj member]
      exact box
    · rw [List.getElem?_set_ne (Ne.symm same)] at member
      rw [others other same]
      exact seen.boxes other found' member
  · by_cases same : target = pid
    · subst same
      exact ⟨next, List.getElem?_set_self inside, room sender msg flight⟩
    · rw [List.getElem?_set_ne (Ne.symm same)]
      exact seen.room sender target msg (flights sender target msg same flight)

/-- A process changes without its mailbox and its state. -/
theorem Seen.keep (seen : kernel.Seen scene table) (found : table[pid]? = some process)
    (valid : Table after.sched (table.set pid next)) (state : next.state = process.state)
    (mailbox : next.mailbox = process.mailbox) (phase : after.phase = kernel.phase)
    (early : after.sched.tick ≤ switchTick) : after.Seen scene (table.set pid next) := by
  refine seen.put found valid ?_ ?_ (fun _ _ => rfl) (phase.trans seen.phase) (fun sender msg flight => ?_)
    (fun _ _ _ _ => id) early
  · rw [state, set_found (seen.state found)]
  · rw [mailbox]
    exact seen.boxes pid process found
  · obtain ⟨other, member, room⟩ := seen.room sender pid msg flight
    obtain rfl := Option.some.inj (found.symm.trans member)
    rwa [mailbox]

/-- Neither half of a send touches the clock. -/
theorem ipcsendExpand_tick {sched grown : Sched} {msg filled : Ipc} {proc : Nat} {answer : Option Nat}
    (ran : ipcsendExpand sched msg answer = .ok (filled, proc, grown)) : grown.tick = sched.tick := by
  obtain ⟨current, -, rest⟩ := bind_ok ran
  obtain ⟨found, -, rest⟩ := bind_ok rest
  cases found with
  | none => cases rest
  | some proc =>
    obtain ⟨process, -, rest⟩ := bind_ok rest
    obtain ⟨mailbox, -, rest⟩ := bind_ok rest
    have result := Except.ok.inj rest
    simp only [Prod.mk.injEq] at result
    rw [← result.2.2]

theorem seekRunning_tick {fuel : Nat} {sched later : Sched} (ran : seekRunning fuel sched = .ok later) :
    later.tick = sched.tick := by
  induction fuel generalizing sched with
  | zero => cases ran
  | succ fuel ih =>
    obtain ⟨process, -, rest⟩ := bind_ok ran
    split at rest
    next =>
      have kept := ih rest
      exact kept
    next =>
      obtain rfl := Except.ok.inj rest
      rfl

/-- The clock never stands behind the tick of a switch. -/
theorem yieldTask_tick {sched later : Sched} {regs installed : Registers}
    (ran : yieldTask sched regs = .ok (installed, later)) : later.tick ≤ switchTick := by
  unfold yieldTask at ran
  dsimp only at ran
  split at ran
  next =>
    obtain ⟨saved, save, rest⟩ := bind_ok ran
    obtain ⟨process, -, saving⟩ := bind_ok save
    obtain rfl := Except.ok.inj saving
    obtain ⟨sought, seeking, rest⟩ := bind_ok rest
    have zero := seekRunning_tick seeking
    obtain ⟨⟨loaded, switched⟩, switching, rest⟩ := bind_ok rest
    obtain ⟨target, -, switching⟩ := bind_ok switching
    obtain ⟨rfl, rfl⟩ := Prod.mk.inj (Except.ok.inj switching)
    obtain ⟨again, -, rest⟩ := bind_ok rest
    obtain ⟨rfl, rfl⟩ := Prod.mk.inj (Except.ok.inj rest)
    exact Nat.le_trans (Nat.le_of_eq zero) (Nat.zero_le _)
  next early =>
    obtain ⟨rfl, rfl⟩ := Prod.mk.inj (Except.ok.inj ran)
    exact Nat.le_of_lt_succ (Nat.lt_of_not_le early)

section Moves

theorem enter_returns (seen : kernel.Seen scene table)
    (running : scene.states[kernel.sched.currentPid]? = some .running)
    (user : scene.phase kernel.sched.currentPid = .user) : kernel.enter = .ok () := by
  obtain ⟨process, found, alive⟩ := seen.found running
  have current : schedCurrentProcess kernel.sched = .ok process := seen.valid.shows.get_some found
  unfold enter
  rw [current, ok_bind, check_true _ alive, ok_bind, seen.phase, user]
  rfl

theorem Shows.getpid (shows : kernel.Shows scene) : syscallGetpid kernel.sched = .ok kernel.sched.currentPid := by
  obtain ⟨table, seen⟩ := shows
  obtain ⟨process, found⟩ : ∃ process, table[kernel.sched.currentPid]? = some process :=
    ⟨_, List.getElem?_eq_getElem seen.valid.current⟩
  have current : schedCurrentProcess kernel.sched = .ok process := seen.valid.shows.get_some found
  unfold syscallGetpid
  rw [current, ok_bind, seen.valid.pids _ _ found]
  rfl

variable {pml rip bstack rbx : Nat} {stack : Range} {answer : Option Nat} {regs : Registers} {msg : Ipc} {sync : Bool}

theorem Shows.created (shows : kernel.Shows scene) (fresh : scene.boxes scene.states.length = [])
    (ran : move kernel (.create pml rip bstack stack 0 0 0 0 answer) = .ok after) :
    after.Shows { scene with states := scene.states ++ [.running] } ∧ kernel.Stays after := by
  obtain ⟨table, seen⟩ := shows
  obtain ⟨sched, pushed, rest⟩ := bind_ok ran
  obtain rfl := Except.ok.inj rest
  obtain ⟨valid, current⟩ := seen.valid.push pushed
  have tick : sched.tick = kernel.sched.tick := by
    obtain ⟨processes, -, rest⟩ := bind_ok pushed
    obtain rfl := Except.ok.inj rest
    rfl
  refine ⟨⟨_, valid, ?_, fun pid process member => ?_, seen.phase, fun sender target msg flight => ?_, ?_⟩, current,
    Nat.le_of_eq tick.symm⟩
  · rw [List.map_append, seen.states]
    rfl
  · by_cases inside : pid < table.length
    · rw [List.getElem?_append_left inside] at member
      exact seen.boxes pid process member
    · rw [List.getElem?_append_right (by omega)] at member
      have last : pid - table.length < 1 := (List.getElem?_eq_some_iff.mp member).1
      obtain rfl := List.mem_singleton.mp (List.mem_of_getElem? member)
      have empty : scene.boxes pid = [] := by
        rw [← fresh, ← seen.states, List.length_map]
        congr 1
        omega
      dsimp only
      rw [empty]
      exact .init
  · obtain ⟨process, member, room⟩ := seen.room sender target msg flight
    exact ⟨process, (List.getElem?_append_left (List.getElem?_eq_some_iff.mp member).1).trans member, room⟩
  · dsimp only
    rw [tick]
    exact seen.early

theorem Shows.create_returns (shows : kernel.Shows scene) (granted : answer ≠ none) :
    ∃ after, move kernel (.create pml rip bstack stack 0 0 0 0 answer) = .ok after := by
  obtain ⟨table, seen⟩ := shows
  obtain ⟨pointer, rfl⟩ := Option.ne_none_iff_exists'.mp granted
  obtain ⟨processes, pushed⟩ := seen.valid.shows.push_returns (some pointer) (by simp)
    { newTask pml rip bstack stack with
      pid := kernel.sched.lastPid, regs :=
        { (newTask pml rip bstack stack).regs with rdi := 0, rsi := 0, rdx := 0, rcx := 0 } }
  unfold move schedPushProcess5
  dsimp only at pushed ⊢
  rw [pushed]
  exact ⟨_, rfl⟩

theorem Shows.exited (shows : kernel.Shows scene) (running : scene.states[kernel.sched.currentPid]? = some .running)
    (user : scene.phase kernel.sched.currentPid = .user) (rbx : Nat) :
    ∃ after, move kernel (.exit rbx) = .ok after ∧ kernel.Stays after ∧
      after.Shows (scene.put kernel.sched.currentPid .waitingForDeath .user (scene.boxes kernel.sched.currentPid)) := by
  obtain ⟨table, seen⟩ := shows
  obtain ⟨process, found, -⟩ := seen.found running
  have current : schedCurrentProcess kernel.sched = .ok process := seen.valid.shows.get_some found
  have own := seen.valid.pids _ _ found
  unfold move syscallExit
  dsimp only
  rw [enter_returns seen running user, ok_bind, current]
  refine ⟨_, rfl, ⟨rfl, Nat.le_refl _⟩, _, seen.put found (seen.valid.set own) rfl ?_ ?_ ?_ ?_ ?_ seen.early⟩
  · dsimp only [Scene.put]
    rw [Function.update_self]
    exact seen.boxes _ process found
  · exact fun other apart => Function.update_of_ne apart _ _
  · dsimp only [Scene.put]
    rw [← user, Function.update_eq_self]
    exact seen.phase
  · intro sender msg flight
    obtain ⟨other, member, room⟩ := seen.room sender _ msg (Scene.flight_kept (by simp) flight).2
    obtain rfl := Option.some.inj (found.symm.trans member)
    exact room
  · exact fun sender target more _ flight => (Scene.flight_kept (by simp) flight).2

/-- The first half of a send leaves room for the second. -/
theorem Shows.checked (shows : kernel.Shows scene) (ran : move kernel (.check msg answer) = .ok after) :
    after.Shows (scene.reach kernel.sched.currentPid
      (.sending msg.receiver { msg with sender := kernel.sched.currentPid })) ∧
      kernel.Stays after := by
  obtain ⟨table, seen⟩ := shows
  obtain ⟨⟨⟩, entered, rest⟩ := bind_ok ran
  obtain ⟨⟨filled, proc, sched⟩, checked, rest⟩ := bind_ok rest
  obtain rfl := Except.ok.inj rest
  obtain ⟨rfl, rfl, target, mailbox, found, -, expanded, valid, current⟩ := seen.valid.send_expand checked
  have tick : sched.tick = kernel.sched.tick := ipcsendExpand_tick checked
  obtain ⟨length, capacity, -⟩ := vecExpand_ok expanded
  have before := seen.boxes _ target found
  refine ⟨⟨_, seen.put found valid ?_ (before.expand expanded) (fun _ _ => rfl) ?_ (fun _ _ _ => ?_) ?_ ?_⟩,
    current, Nat.le_of_eq tick.symm⟩
  · exact (set_found (seen.state found)).symm
  · exact congrArg (Function.update · _ _) seen.phase
  · rw [length, capacity]
    exact Vec.lt_grown before.room
  · intro sender other flying apart flight
    by_cases same : sender = kernel.sched.currentPid
    · subst same
      rw [Scene.reach_self] at flight
      exact absurd (Phase.sending.inj flight).1.symm apart
    · rwa [Scene.reach_other scene same] at flight
  · dsimp only
    rw [tick]
    exact seen.early

theorem Shows.check_returns (shows : kernel.Shows scene)
    (running : scene.states[kernel.sched.currentPid]? = some .running)
    (user : scene.phase kernel.sched.currentPid = .user) (target : scene.states[msg.receiver]? = some .running)
    (granted : answer ≠ none) : ∃ after, move kernel (.check msg answer) = .ok after := by
  obtain ⟨table, seen⟩ := shows
  obtain ⟨process, found, -⟩ := seen.found running
  have current : schedCurrentProcess kernel.sched = .ok process := seen.valid.shows.get_some found
  obtain ⟨receiver, member, alive⟩ := seen.found target
  have got := seen.valid.shows.get_some member
  have asked : schedGetByPid kernel.sched msg.receiver = .ok (some msg.receiver) := by
    have inside := (List.getElem?_eq_some_iff.mp member).1
    rw [← seen.valid.shows.length] at inside
    unfold schedGetByPid
    rw [if_pos inside, got, ok_bind, if_pos alive]
    rfl
  obtain ⟨mailbox, expanded⟩ := vecExpand_returns receiver.mailbox granted
  unfold move ipcsendExpand
  dsimp only
  rw [enter_returns seen running user, ok_bind, current, ok_bind, asked, ok_bind]
  dsimp only
  rw [got, ok_bind, expanded]
  exact ⟨_, rfl⟩

/-- The second half of a send, with no other to the same mailbox under way. -/
theorem Shows.stored {proc : Nat} (shows : kernel.Shows scene)
    (flying : scene.phase kernel.sched.currentPid = .sending proc msg)
    (alone : ∀ other more, scene.phase other = .sending proc more → other = kernel.sched.currentPid) :
    ∃ after, move kernel .store = .ok after ∧ kernel.Stays after ∧
      after.Shows { scene.reach kernel.sched.currentPid .user with
        boxes := Function.update scene.boxes proc (scene.boxes proc ++ [msg]) } := by
  obtain ⟨table, seen⟩ := shows
  obtain ⟨target, found, room⟩ := seen.room _ proc msg flying
  have got := seen.valid.shows.get_some found
  obtain ⟨mailbox, stored⟩ : ∃ mailbox, vecStore target.mailbox msg = .ok mailbox :=
    ⟨_, vecStore_room target.mailbox msg room⟩
  have before := seen.boxes proc target found
  have ran : ipcsendStore kernel.sched proc msg =
      .ok { kernel.sched with processes := kernel.sched.processes.modify proc { target with mailbox } } := by
    unfold ipcsendStore
    rw [got, ok_bind, stored]
    rfl
  have moved : move kernel .store = .ok { kernel.become .user with
      sched := { kernel.sched with processes := kernel.sched.processes.modify proc { target with mailbox } }
      sent := Function.update kernel.sent proc (kernel.sent proc ++ [msg]) } := by
    unfold move
    rw [seen.phase, flying]
    dsimp only
    rw [ran]
    rfl
  have own := seen.valid.pids _ _ found
  refine ⟨_, moved, ⟨rfl, Nat.le_refl _⟩, _, seen.put found (seen.valid.set own) ?_ ?_ ?_ ?_ ?_ ?_ seen.early⟩
  · exact (set_found (seen.state found)).symm
  · dsimp only
    rw [Function.update_self]
    exact before.store stored
  · exact fun other apart => Function.update_of_ne apart _ _
  · exact congrArg (Function.update · _ _) seen.phase
  · intro sender more flight
    obtain ⟨same, flight⟩ := Scene.flight_kept (by simp) flight
    exact absurd (alone sender more flight) same
  · exact fun sender other more _ flight => (Scene.flight_kept (by simp) flight).2

theorem Shows.tested (shows : kernel.Shows scene) (running : scene.states[kernel.sched.currentPid]? = some .running)
    (user : scene.phase kernel.sched.currentPid = .user) (sync : Bool) :
    ∃ after, move kernel (.test sync) = .ok after ∧ kernel.Stays after ∧
      (scene.boxes kernel.sched.currentPid ≠ [] ∧
          after.Shows (scene.put kernel.sched.currentPid .running .popping (scene.boxes kernel.sched.currentPid)) ∨
        scene.boxes kernel.sched.currentPid = [] ∧ after.Shows scene) := by
  obtain ⟨table, seen⟩ := shows
  have enters := enter_returns seen running user
  obtain ⟨process, found, -⟩ := seen.found running
  have current : schedCurrentProcess kernel.sched = .ok process := seen.valid.shows.get_some found
  have box := seen.boxes _ process found
  have test : ipcrcvTest kernel.sched = .ok (decide (process.mailbox.length ≠ 0)) := by
    unfold ipcrcvTest
    rw [current]
    rfl
  unfold move
  dsimp only
  rw [enters, ok_bind, test, ok_bind]
  by_cases some : process.mailbox.length ≠ 0
  · rw [if_pos (decide_eq_true some), Scene.put_reach running]
    refine ⟨_, rfl, ⟨rfl, Nat.le_refl _⟩, .inl ⟨fun none => some ?_, table, seen.valid, seen.states, seen.boxes, ?_,
      ?_, seen.early⟩⟩
    · rw [box.length, none]
      rfl
    · exact congrArg (Function.update · _ _) seen.phase
    · exact fun sender target msg flight => seen.room sender target msg (Scene.flight_kept (by simp) flight).2
  · rw [if_neg (by simpa using some)]
    have none : scene.boxes kernel.sched.currentPid = [] := by
      rw [← List.length_eq_zero_iff, ← box.length]
      exact not_not.mp some
    cases sync with
    | false => exact ⟨_, rfl, ⟨rfl, Nat.le_refl _⟩, .inr ⟨none, table, seen⟩⟩
    | true =>
      refine ⟨_, rfl, ⟨rfl, seen.early⟩,
        .inr ⟨none, table, ⟨seen.valid.shows, seen.valid.pids, seen.valid.last, seen.valid.current⟩,
        seen.states, seen.boxes, seen.phase, seen.room, Nat.le_refl _⟩⟩

theorem Shows.popped {rest : List Ipc} (shows : kernel.Shows scene)
    (running : scene.states[kernel.sched.currentPid]? = some .running)
    (popping : scene.phase kernel.sched.currentPid = .popping)
    (box : scene.boxes kernel.sched.currentPid = rest ++ [msg]) :
    ∃ sched after, ipcrcvPop kernel.sched = .ok (msg, sched) ∧ move kernel .pop = .ok after ∧ kernel.Stays after ∧
      after.Shows (scene.put kernel.sched.currentPid .running .user rest) := by
  obtain ⟨table, seen⟩ := shows
  obtain ⟨process, found, alive⟩ := seen.found running
  have current : schedCurrentProcess kernel.sched = .ok process := seen.valid.shows.get_some found
  have holds := seen.boxes _ process found
  have some : process.mailbox.length ≠ 0 := by
    rw [holds.length, box]
    simp
  obtain ⟨⟨taken, mailbox⟩, pops⟩ := holds.pop_returns some
  obtain ⟨before, split, left, fewer⟩ := holds.pop pops
  obtain ⟨rfl, single⟩ := List.append_inj' (box.symm.trans split) rfl
  obtain rfl := List.singleton_inj.mp single
  have ran : ipcrcvPop kernel.sched = .ok (msg, { kernel.sched with
      processes := kernel.sched.processes.modify kernel.sched.currentPid { process with mailbox } }) := by
    unfold ipcrcvPop
    rw [current, ok_bind, pops]
    rfl
  have moved : move kernel .pop = .ok { kernel.become .user with
      sched := { kernel.sched with processes := kernel.sched.processes.modify kernel.sched.currentPid { process with mailbox } }
      received := Function.update kernel.received kernel.sched.currentPid
        (kernel.received kernel.sched.currentPid ++ [msg]) } := by
    unfold move
    rw [seen.phase, popping]
    dsimp only
    rw [ran]
    rfl
  have own := seen.valid.pids _ _ found
  refine ⟨_, _, ran, moved, ⟨rfl, Nat.le_refl _⟩, _, seen.put found (seen.valid.set own) ?_ ?_ ?_ ?_ ?_ ?_ seen.early⟩
  · exact congrArg (scene.states.set _) alive.symm
  · dsimp only [Scene.put]
    rw [Function.update_self]
    exact left
  · exact fun other apart => Function.update_of_ne apart _ _
  · exact congrArg (Function.update · _ _) seen.phase
  · intro sender more flight
    obtain ⟨other, member, room⟩ := seen.room sender _ more (Scene.flight_kept (by simp) flight).2
    obtain rfl := Option.some.inj (found.symm.trans member)
    rw [fewer]
    exact Nat.lt_of_le_of_lt (Nat.sub_le _ _) room
  · exact fun sender target more _ flight => (Scene.flight_kept (by simp) flight).2

/-- With process 0 running a tick comes back, and changes nothing but whose turn it is. -/
theorem Shows.ticked (shows : kernel.Shows scene) (kernel_runs : scene.states[0]? = some .running) (regs : Registers) :
    ∃ after, move kernel (.tick regs) = .ok after ∧ after.Shows scene ∧
      (kernel.sched.tick < switchTick ∧ after.sched.currentPid = kernel.sched.currentPid ∧ after.sched.tick =
        kernel.sched.tick + 1 ∨
        kernel.sched.tick = switchTick ∧ Rotation.FirstAfter kernel.sched.ring after.sched.currentPid) := by
  obtain ⟨table, seen⟩ := shows
  have alive : Runnable kernel.sched 0 := seen.valid.runnable.mpr (seen.found kernel_runs)
  obtain ⟨installed, sched, ran, first⟩ := seen.valid.yield_first alive regs
  refine ⟨{ kernel with sched }, ?_, ?_⟩
  · unfold move
    dsimp only
    rw [ran]
    rfl
  cases seen.valid.yield_cases ran with
  | inl early =>
    obtain ⟨soon, -, rfl⟩ := early
    exact ⟨⟨table, ⟨seen.valid.shows, seen.valid.pids, seen.valid.last, seen.valid.current⟩, seen.states,
      seen.boxes, seen.phase, seen.room, Nat.succ_le_of_lt soon⟩, .inl ⟨soon, rfl, rfl⟩⟩
  | inr switch =>
    obtain ⟨process, found, valid⟩ := switch.saved
    have reset : sched.tick ≤ switchTick := yieldTask_tick ran
    exact ⟨⟨_, seen.keep found valid rfl rfl rfl reset⟩, .inr ⟨Nat.le_antisymm seen.early switch.due, first switch.due⟩⟩

end Moves

end Preempted

end Navy
