import Mathlib.Algebra.Order.BigOperators.Group.Finset
import Navy.Proofs.Scenes
import Navy.Proofs.TestLines

/-! The test program over every order of ticks and turns: where each process
stands, what it has sent or got, and what it has printed. -/

namespace Navy.TestIpc
open Outcome Paths

def askOne : Ipc := ⟨0, 1, 0xdeadbeef⟩
def askTwo : Ipc := ⟨0, 2, 0xcafebabe⟩

/-- The sender, with what it has put into each of the two mailboxes. -/
inductive Sends : Point → Phase → List Ipc → List Ipc → Prop where
  | main : Sends .main .user [] []
  | first : Sends (.send askOne [askTwo]) .user [] []
  | firstStore : Sends (.send askOne [askTwo]) (.sending 1 letterOne) [] []
  | second : Sends (.send askTwo []) .user [letterOne] []
  | secondStore : Sends (.send askTwo []) (.sending 2 letterTwo) [letterOne] []
  | exits : Sends .exit .user [letterOne] [letterTwo]
  | exited : Sends .exited .user [letterOne] [letterTwo]

/-- One of the two receivers. -/
structure Reader where
  pid : Nat
  wait : Point
  sync : Bool
  got : Ipc → Point
  letter : Ipc
  line : List (BitVec 8)
  texts : List (List (BitVec 8))
  starts : mainSwitch pid = wait
  waits : ∀ (world : World) (chance : Chance), world.point world.pid = wait → world.go chance = world.await sync got
  stays : wait ≠ .exited
  tells : Tells pid (got letter) line texts

def readerOne : Reader where
  pid := 1
  wait := .receiver
  sync := true
  got := gotIpc
  letter := letterOne
  line := lineOne
  texts := textsOne
  starts := rfl
  waits world chance here := by
    unfold World.go
    rw [here]
  stays := nofun
  tells := tells_one

def readerTwo : Reader where
  pid := 2
  wait := .receiverOneshot
  sync := false
  got := gotIpcOneshot
  letter := letterTwo
  line := lineTwo
  texts := textsTwo
  starts := rfl
  waits world chance here := by
    unfold World.go
    rw [here]
  stays := nofun
  tells := tells_two

/-- A receiver, with what it has taken out of its mailbox and what it has printed. -/
inductive Reader.Stage (reader : Reader) : Point → Phase → List Ipc → List (BitVec 8) → Prop where
  | main : Stage reader .main .user [] []
  | waits : Stage reader reader.wait .user [] []
  | pops : Stage reader reader.wait .popping [] []
  | logs : Stage reader (reader.got reader.letter) .user [reader.letter] []
  | prints {text done : List (BitVec 8)} {left : List (List (BitVec 8))}
    (whole : done ++ (text :: left).flatten = reader.line) :
      Stage reader (.print text left) .user [reader.letter] done
  | exits : Stage reader .exit .user [reader.letter] reader.line
  | exited : Stage reader .exited .user [reader.letter] reader.line

theorem Reader.Stage.receives {reader : Reader} {point : Point} {target : Nat} {msg : Ipc} {got : List Ipc}
    {output : List (BitVec 8)} (stage : reader.Stage point (.sending target msg) got output) : False := by
  cases stage

/-- A receiver with its mailbox: what was sent to it, it has got or still finds there. -/
structure Reader.Stands (reader : Reader) (world : World) (scene : Scene) (sent : List Ipc) : Prop where
  stage : ∃ got, reader.Stage (world.point reader.pid) (scene.phase reader.pid) got (world.output reader.pid) ∧
    got ++ scene.boxes reader.pid = sent
  some : scene.phase reader.pid = .popping → scene.boxes reader.pid ≠ []

/-- The state of a process that stands there. -/
def Point.state : Point → TaskState
  | .exited => .waitingForDeath
  | _ => .running

structure Good (world : World) (scene : Scene) (left : Nat) (sent : Nat → List Ipc) : Prop where
  shows : world.kernel.Shows scene
  kernel : world.point 0 = .kmain left
  created : left + scene.states.length = 4
  waiting : ∀ pid, scene.states.length ≤ pid → world.point pid = .main
  alive : ∀ pid, pid < scene.states.length → scene.states[pid]? = some (world.point pid).state
  users : ∀ pid, pid ∉ [1, 2, 3] → scene.phase pid = .user
  sends : Sends (world.point 3) (scene.phase 3) (sent 1) (sent 2)
  reads : ∀ reader ∈ [readerOne, readerTwo], reader.Stands world scene (sent reader.pid)
  empty : ∀ pid, pid ∉ [1, 2] → scene.boxes pid = [] ∧ world.output pid = []

/-- How many turns a process still has that lead on, with so many texts to print. -/
def rank (texts : Nat) : Point → Phase → Nat
  | .kmain left, _ => left
  | .main, _ => texts + 6
  | .receiver, .user => texts + 4
  | .receiver, _ => texts + 3
  | .receiverOneshot, .user => texts + 4
  | .receiverOneshot, _ => texts + 3
  | .log .., _ => texts + 2
  | .print _ left, _ => left.length + 2
  | .send _ left, .user => 2 * left.length + 3
  | .send _ left, _ => 2 * left.length + 2
  | .exit, _ => 1
  | .exited, _ => 0

def toPrint : Nat → Nat
  | 1 => textsOne.length
  | 2 => textsTwo.length
  | _ => 0

/-- The turns that still lead on, of all processes. -/
def weight (world : World) : Nat :=
  (Finset.range 4).sum fun pid => rank (toPrint pid) (world.point pid) (world.kernel.phase pid)

theorem weight_lt {world after : World} {pid : Nat} (inside : pid < 4)
    (others : ∀ other, other ≠ pid → after.point other = world.point other ∧ after.kernel.phase other =
      world.kernel.phase other)
    (less : rank (toPrint pid) (after.point pid) (after.kernel.phase pid) < rank (toPrint pid) (world.point pid)
      (world.kernel.phase pid)) :
    weight after < weight world := by
  apply Finset.sum_lt_sum
  · intro other _
    by_cases same : other = pid
    · subst same
      exact Nat.le_of_lt less
    · rw [(others other same).1, (others other same).2]
  · exact ⟨pid, Finset.mem_range.mpr inside, less⟩

/-- The process has nothing to do, or nothing yet. -/
def Idle (point : Point) (phase : Phase) (box : List Ipc) : Prop :=
  point = .kmain 0 ∨ point = .exited ∨ (point = .receiver ∨ point = .receiverOneshot) ∧ phase = .user ∧ box = []

/-- A turn of the current process: it leads on, or there was nothing to do. -/
structure Turn (world : World) (scene : Scene) (left : Nat) (sent : Nat → List Ipc) (after : World) : Prop where
  good : ∃ scene' left' sent', Good after scene' left' sent'
  stays : world.kernel.Stays after.kernel
  leads : weight after < weight world ∨ Idle (world.point world.pid) (scene.phase world.pid) (scene.boxes world.pid) ∧
    after.point = world.point ∧ Good after scene left sent

namespace Good

variable {world after : World} {scene scene' : Scene} {left : Nat} {sent sent' : Nat → List Ipc} {chance : Chance}

theorem current (good : Good world scene left sent) : world.pid < scene.states.length := by
  obtain ⟨table, seen⟩ := good.shows
  exact seen.current

theorem runs {pid : Nat} (good : Good world scene left sent) (created : pid < scene.states.length)
    (lives : world.point pid ≠ .exited) : scene.states[pid]? = some .running := by
  rw [good.alive pid created]
  cases point : world.point pid with
  | exited => exact absurd point lives
  | _ => rfl

theorem enters (good : Good world scene left sent) (lives : world.point world.pid ≠ .exited)
    (user : scene.phase world.pid = .user) : world.kernel.enter = .ok () := by
  obtain ⟨table, seen⟩ := good.shows
  exact Preempted.enter_returns seen (good.runs good.current lives) user

/-- A user process went on, and only its own things have changed. -/
theorem goes {pid : Nat} (good : Good world scene left sent) (own : pid ≠ 0)
    (created : pid < scene.states.length) (shows : after.kernel.Shows scene')
    (point : ∀ other, other ≠ pid → after.point other = world.point other)
    (count : scene'.states.length = scene.states.length)
    (alive : scene'.states[pid]? = some (after.point pid).state)
    (states : ∀ other, other ≠ pid → scene'.states[other]? = scene.states[other]?)
    (users : ∀ other, other ∉ [1, 2, 3] → scene'.phase other = .user)
    (sends : Sends (after.point 3) (scene'.phase 3) (sent' 1) (sent' 2))
    (reads : ∀ reader ∈ [readerOne, readerTwo], reader.Stands after scene' (sent' reader.pid))
    (empty : ∀ other, other ∉ [1, 2] → scene'.boxes other = [] ∧ after.output other = []) :
    Good after scene' left sent' := by
  refine ⟨shows, ?_, count ▸ good.created, fun other beyond => ?_, fun other inside => ?_, users, sends, reads, empty⟩
  · rw [point 0 (Ne.symm own)]
    exact good.kernel
  · rw [count] at beyond
    rw [point other (by omega)]
    exact good.waiting other beyond
  · rw [count] at inside
    by_cases same : other = pid
    · rw [same]
      exact alive
    · rw [states other same, point other same]
      exact good.alive other inside

theorem turn {scene' : Scene} {left' : Nat} (good : Good world scene left sent) (good' : Good after scene' left' sent')
    (stays : world.kernel.Stays after.kernel) (inside : world.pid < 4)
    (points : ∀ other, other ≠ world.pid → after.point other = world.point other)
    (phases : ∀ other, other ≠ world.pid → scene'.phase other = scene.phase other)
    (less : rank (toPrint world.pid) (after.point world.pid) (scene'.phase world.pid) <
      rank (toPrint world.pid) (world.point world.pid) (scene.phase world.pid)) : Turn world scene left sent after := by
  have before : world.kernel.phase = scene.phase := good.shows.phase
  have later : after.kernel.phase = scene'.phase := good'.shows.phase
  refine ⟨⟨scene', left', sent', good'⟩, stays,
    .inl (weight_lt inside (fun other apart => ⟨points other apart, ?_⟩) ?_)⟩
  · rw [before, later]
    exact phases other apart
  · rw [before, later]
    exact less

theorem rests (good : Good world scene left sent) (shows : after.kernel.Shows scene) (point : after.point = world.point)
    (output : after.output = world.output) : Good after scene left sent := by
  refine ⟨shows, ?_, good.created, ?_, ?_, good.users, ?_, fun reader among => ?_, ?_⟩
  · rw [point]
    exact good.kernel
  · rw [point]
    exact good.waiting
  · rw [point]
    exact good.alive
  · rw [point]
    exact good.sends
  · obtain ⟨stage, some⟩ := good.reads reader among
    refine ⟨?_, some⟩
    rw [point, output]
    exact stage
  · rw [output]
    exact good.empty

theorem idle (good : Good world scene left sent) (shows : after.kernel.Shows scene)
    (stays : world.kernel.Stays after.kernel) (point : after.point = world.point)
    (output : after.output = world.output)
    (idle : Idle (world.point world.pid) (scene.phase world.pid) (scene.boxes world.pid)) :
    Turn world scene left sent after :=
  have rests := good.rests shows point output
  ⟨⟨scene, left, sent, rests⟩, stays, .inr ⟨idle, point, rests⟩⟩

end Good

section Reader

variable {world after : World} {scene : Scene} {left : Nat} {sent : Nat → List Ipc} {chance : Chance} {reader : Reader}

theorem Reader.pid_cases (among : reader ∈ [readerOne, readerTwo]) : reader = readerOne ∧ reader.pid = 1 ∨
    reader = readerTwo ∧ reader.pid = 2 := by
  rcases List.mem_pair.mp among with rfl | rfl
  · exact .inl ⟨rfl, rfl⟩
  · exact .inr ⟨rfl, rfl⟩

theorem Reader.bounds (among : reader ∈ [readerOne, readerTwo]) : 0 < reader.pid ∧ reader.pid < 3 := by
  cases Reader.pid_cases among with
  | inl one => omega
  | inr two => omega

theorem Reader.apart {pid : Nat} (among : reader ∈ [readerOne, readerTwo]) (outside : pid ∉ [1, 2]) :
    pid ≠ reader.pid := by
  intro same
  apply outside
  rw [same]
  cases Reader.pid_cases among with
  | inl one => simp [one.2]
  | inr two => simp [two.2]

theorem Reader.unique {other : Reader} (among : reader ∈ [readerOne, readerTwo])
    (among' : other ∈ [readerOne, readerTwo]) (same : other.pid = reader.pid) : other = reader := by
  rcases Reader.pid_cases among with ⟨rfl, one⟩ | ⟨rfl, two⟩
  · rcases Reader.pid_cases among' with ⟨rfl, -⟩ | ⟨rfl, other⟩
    · rfl
    · omega
  · rcases Reader.pid_cases among' with ⟨rfl, other⟩ | ⟨rfl, -⟩
    · omega
    · rfl

theorem Good.reader_moves (good : Good world scene left sent) (among : reader ∈ [readerOne, readerTwo])
    (own : world.pid = reader.pid) {point : Point} {phase : Phase} {box got : List Ipc}
    {output : List (BitVec 8)} (points : after.point = Function.update world.point world.pid point)
    (outputs : after.output = Function.update world.output world.pid output)
    (shows : after.kernel.Shows (scene.put world.pid point.state phase box))
    (stage : reader.Stage point phase got output) (whole : got ++ box = sent reader.pid)
    (some : phase = .popping → box ≠ []) :
    Good after (scene.put world.pid point.state phase box) left sent := by
  have inside := good.current
  have bounds := Reader.bounds among
  have beyond {other : Nat} (outside : other ∉ [1, 2]) : other ≠ world.pid := own ▸ Reader.apart among outside
  have elsewhere {other : Nat} (apart : other ≠ world.pid) : after.point other = world.point other ∧
    after.output other = world.output other := by
    rw [points, outputs, Function.update_of_ne apart, Function.update_of_ne apart]
    exact ⟨rfl, rfl⟩
  have seen {other : Nat} (apart : other ≠ world.pid) :=
    @Scene.put_other scene world.pid other point.state phase box apart
  refine @Good.goes world after scene _ left sent sent world.pid good (by omega) inside shows
    (fun other apart => (elsewhere apart).1) ?_ ?_
    (fun other apart => (seen apart).1) ?_ ?_ ?_ ?_
  · exact Scene.put_length
  · rw [points, Function.update_self]
    simp [Scene.put, inside]
  · intro other outside
    have apart := @beyond other fun among => outside (List.mem_append_left [3] among)
    exact (seen apart).2.1.trans (good.users other outside)
  · have apart : 3 ≠ world.pid := by omega
    rw [(elsewhere apart).1, (seen apart).2.1]
    exact good.sends
  · intro other among'
    by_cases same : other.pid = world.pid
    · obtain rfl := Reader.unique among among' (same.trans own)
      refine ⟨⟨got, ?_, ?_⟩, ?_⟩
      · rw [points, outputs, ← own, Function.update_self, Function.update_self, Scene.put_phase]
        exact stage
      · rw [← whole, ← own, Scene.put_box]
      · rw [← own, Scene.put_phase, Scene.put_box]
        exact some
    · obtain ⟨⟨had, stage, whole⟩, some⟩ := good.reads other among'
      refine ⟨⟨had, ?_, ?_⟩, ?_⟩
      · rw [(elsewhere same).1, (elsewhere same).2, (seen same).2.1]
        exact stage
      · rw [(seen same).2.2]
        exact whole
      · rw [(seen same).2.1, (seen same).2.2]
        exact some
  · intro other outside
    have apart := beyond outside
    rw [(elsewhere apart).2, (seen apart).2.2]
    exact good.empty other outside

theorem Sends.letters {point : Point} {phase : Phase} {one two : List Ipc} (sends : Sends point phase one two) :
    (one = [] ∨ one = [letterOne]) ∧ (two = [] ∨ two = [letterTwo]) := by
  cases sends <;> simp

/-- A receiver finds its own letter, or nothing. -/
theorem Good.letter (good : Good world scene left sent) (among : reader ∈ [readerOne, readerTwo]) :
    sent reader.pid = [] ∨ sent reader.pid = [reader.letter] := by
  rcases Reader.pid_cases among with ⟨rfl, -⟩ | ⟨rfl, -⟩
  · exact good.sends.letters.1
  · exact good.sends.letters.2

theorem Reader.rank_wait (among : reader ∈ [readerOne, readerTwo]) (count : Nat) :
    rank count reader.wait .user = count + 4 ∧ rank count reader.wait .popping = count + 3 ∧
      toPrint reader.pid = reader.texts.length ∧ (reader.wait = .receiver ∨ reader.wait = .receiverOneshot) := by
  rcases Reader.pid_cases among with ⟨rfl, -⟩ | ⟨rfl, -⟩
  · exact ⟨rfl, rfl, by simp only [readerOne, toPrint], .inl rfl⟩
  · exact ⟨rfl, rfl, by simp only [readerTwo, toPrint], .inr rfl⟩

/-- What is left to print has its place in the rank. -/
theorem rank_printing (count : Nat) (left : List (List (BitVec 8))) (phase : Phase) :
    rank count (printing left) phase = left.length + 1 := by
  cases left <;> rfl

theorem Reader.printing (reader : Reader) {done : List (BitVec 8)} {left : List (List (BitVec 8))}
    (whole : done ++ left.flatten = reader.line) : reader.Stage (printing left) .user [reader.letter] done := by
  cases left with
  | nil =>
    rw [List.flatten_nil, List.append_nil] at whole
    rw [whole]
    exact .exits
  | cons text left => exact .prints whole

theorem state_printing (left : List (List (BitVec 8))) : (printing left).state = .running := by
  cases left <;> rfl

end Reader

section Calls

variable {kernel after : Preempted} {sched : Sched} {msg : Ipc} {sync : Bool} {answer : Option Nat}

theorem receive_test (user : kernel.phase kernel.sched.currentPid = .user)
    (ran : move kernel (.test sync) = .ok after) : receive kernel sync = .ok (none, after) := by
  unfold receive
  rw [user]
  dsimp only
  rw [ran]
  rfl

theorem receive_pop (sync : Bool) (popping : kernel.phase kernel.sched.currentPid = .popping)
    (popped : ipcrcvPop kernel.sched = .ok (msg, sched)) (ran : move kernel .pop = .ok after) :
    receive kernel sync = .ok (some msg, after) := by
  unfold receive
  rw [popping]
  dsimp only
  rw [popped, ok_bind]
  dsimp only
  rw [ran]
  rfl

end Calls

section Turns

variable {world after : World} {scene : Scene} {left : Nat} {sent : Nat → List Ipc} {chance : Chance} {reader : Reader}

/-- From `main` on a process goes where its number leads it. -/
theorem Good.go_main (good : Good world scene left sent) (here : world.point world.pid = .main)
    (user : scene.phase world.pid = .user) (chance : Chance) :
    world.go chance = .ok (world.reach (mainSwitch world.pid)) := by
  have enters := good.enters (by rw [here]; simp) user
  unfold World.go
  rw [here]
  dsimp only
  rw [enters, ok_bind, good.shows.getpid]
  rfl

theorem go_exit {kernel : Preempted} (here : world.point world.pid = .exit)
    (ran : move world.kernel (.exit 0) = .ok kernel) (chance : Chance) :
    world.go chance = .ok { world.reach .exited with kernel } := by
  unfold World.go
  rw [here]
  dsimp only
  rw [ran]
  rfl

theorem go_exited (here : world.point world.pid = .exited) (chance : Chance) : world.go chance = .ok world := by
  unfold World.go
  rw [here]
  rfl

/-- A receiver in its wait tests its mailbox, or takes its letter out. -/
theorem Good.awaits (good : Good world scene left sent) (among : reader ∈ [readerOne, readerTwo])
    (own : world.pid = reader.pid) (here : world.point world.pid = reader.wait)
    (none : reader.Stands world scene (sent reader.pid)) (quiet : world.output world.pid = [])
    (got : scene.boxes world.pid = sent reader.pid)
    (phase : scene.phase world.pid = .user ∨ scene.phase world.pid = .popping) :
    ∃ after, world.await reader.sync reader.got = .ok after ∧ Turn world scene left sent after := by
  have runs := good.runs good.current (by rw [here]; exact reader.stays)
  have below := good.current
  have created := good.created
  obtain ⟨waits, pops, count, waiting⟩ := reader.rank_wait among (toPrint world.pid)
  have steady : reader.wait.state = .running := by
    rcases waiting with same | same <;> rw [same] <;> rfl
  cases phase with
  | inl user =>
    obtain ⟨kernel, ran, stays, ⟨full, shows⟩ | ⟨empty, shows⟩⟩ := good.shows.tested runs user reader.sync
    · have tested := receive_test ((congrFun good.shows.phase _).trans user) ran
      refine ⟨{ world with kernel }, ?_, ?_⟩
      · unfold World.await
        rw [tested]
        rfl
      have good' := @Good.reader_moves world { world with kernel } scene left sent reader good among own reader.wait .popping
        (scene.boxes world.pid) [] [] (by rw [← here, Function.update_eq_self])
          (by rw [← quiet, Function.update_eq_self])
        (by rw [steady]; exact shows) .pops got fun _ => full
      refine good.turn good' stays (by omega) (fun _ _ => rfl) (fun other apart => (Scene.put_other apart).2.1) ?_
      rw [Scene.put_phase, here, user, waits, pops]
      exact Nat.lt_succ_self _
    · have tested := receive_test ((congrFun good.shows.phase _).trans user) ran
      refine ⟨{ world with kernel }, ?_, ?_⟩
      · unfold World.await
        rw [tested]
        rfl
      exact good.idle shows stays rfl rfl (.inr (.inr ⟨here ▸ waiting, user, empty⟩))
  | inr popping =>
    have some := none.some (by rw [← own]; exact popping)
    rw [← own] at some
    have letter : sent reader.pid = [reader.letter] := by
      cases good.letter among with
      | inl empty => exact absurd (got.trans empty) some
      | inr letter => exact letter
    obtain ⟨sched, kernel, popped, ran, stays, shows⟩ :=
      good.shows.popped runs popping (show _ = [] ++ [reader.letter] from got.trans letter)
    have taken := receive_pop reader.sync ((congrFun good.shows.phase _).trans popping) popped ran
    refine ⟨{ world.reach (reader.got reader.letter) with kernel }, ?_, ?_⟩
    · unfold World.await
      rw [taken]
      rfl
    obtain ⟨⟨number, format, args, logs, -⟩, -⟩ := reader.tells
    have good' := @Good.reader_moves world { world.reach
      (reader.got reader.letter) with kernel } scene left sent reader good among own
      (reader.got reader.letter) .user [] [reader.letter] [] rfl (by rw [← quiet, Function.update_eq_self]; rfl)
      (by rw [logs]; exact shows) .logs letter.symm nofun
    refine good.turn good' stays (by omega) (fun other apart => Function.update_of_ne apart _ _)
      (fun other apart => (Scene.put_other apart).2.1) ?_
    rw [Scene.put_phase, here, popping, pops]
    show rank _ (Function.update world.point world.pid (reader.got reader.letter) world.pid) .user < _
    rw [Function.update_self, logs]
    exact Nat.lt_succ_self _

theorem Good.reader_user (good : Good world scene left sent) (among : reader ∈ [readerOne, readerTwo])
    (own : world.pid = reader.pid) (user : scene.phase world.pid = .user)
    (lives : world.point world.pid ≠ .exited) {point : Point} {got : List Ipc} {output : List (BitVec 8)}
    (kernel : after.kernel = world.kernel) (points : after.point = Function.update world.point world.pid point)
    (outputs : after.output = Function.update world.output world.pid output) (steady : point.state = .running)
    (stage : reader.Stage point .user got output) (whole : got ++ scene.boxes world.pid = sent reader.pid)
    (less : rank (toPrint world.pid) point .user < rank (toPrint world.pid) (world.point world.pid) .user) :
    Turn world scene left sent after := by
  have runs := good.runs good.current lives
  have below := good.current
  have created := good.created
  have same : scene.put world.pid point.state .user (scene.boxes world.pid) = scene := by
    rw [steady, ← user]
    exact Scene.put_self runs
  have shows : after.kernel.Shows (scene.put world.pid point.state .user (scene.boxes world.pid)) := by
    rw [same, kernel]
    exact good.shows
  have good' := good.reader_moves among own points outputs shows stage whole nofun
  refine good.turn good' ⟨by rw [kernel], by rw [kernel]⟩ (by omega) (fun other apart => ?_)
    (fun other apart => (Scene.put_other apart).2.1) ?_
  · rw [points, Function.update_of_ne apart]
  · rw [Scene.put_phase, points, Function.update_self, user]
    exact less

theorem Good.reader_goes (good : Good world scene left sent) (among : reader ∈ [readerOne, readerTwo])
    (own : world.pid = reader.pid) (chance : Chance) :
    ∃ after, world.go chance = .ok after ∧ Turn world scene left sent after := by
  have stands := good.reads reader among
  obtain ⟨got, stage, whole⟩ := stands.stage
  have below := good.current
  have created := good.created
  rw [← own] at stage whole
  generalize point : world.point world.pid = here at stage
  generalize phase : scene.phase world.pid = now at stage
  generalize output : world.output world.pid = done at stage
  cases stage with
  | main =>
    refine ⟨world.reach reader.wait, ?_, ?_⟩
    · rw [good.go_main point phase, own, reader.starts]
    · obtain ⟨waits, -, -, waiting⟩ := reader.rank_wait among (toPrint world.pid)
      have steady : reader.wait.state = .running := by
        rcases waiting with same | same <;> rw [same] <;> rfl
      refine good.reader_user among own phase (by rw [point]; simp) rfl rfl ?_ steady .waits (own ▸ whole) ?_
      · rw [← output, Function.update_eq_self]
        rfl
      · rw [waits, point]
        show _ + 4 < _ + 6
        omega
  | waits =>
    obtain ⟨after, ran, turn⟩ := good.awaits among own point stands output (own ▸ whole) (.inl phase)
    exact ⟨after, (reader.waits world chance (own ▸ point)).trans ran, turn⟩
  | pops =>
    obtain ⟨after, ran, turn⟩ := good.awaits among own point stands output (own ▸ whole) (.inr phase)
    exact ⟨after, (reader.waits world chance (own ▸ point)).trans ran, turn⟩
  | logs =>
    obtain ⟨-, -, count, -⟩ := reader.rank_wait among 0
    obtain ⟨⟨number, format, args, logs, told⟩, line⟩ := reader.tells
    rw [logs] at point
    have enters := good.enters (by rw [point]; simp) phase
    refine ⟨world.reach (printing reader.texts), ?_, ?_⟩
    · unfold World.go
      rw [point]
      dsimp only
      rw [enters, ok_bind, good.shows.getpid, ok_bind]
      have texts := told chance.locals
      rw [← own] at texts
      show (logged (logImplUserspace chance.locals world.pid filename number format args) >>= _) = _
      rw [texts]
      rfl
    · refine good.reader_user among own phase (by rw [point]; simp) rfl rfl ?_ (state_printing _)
        (@Reader.printing reader [] reader.texts line) (own ▸ whole) ?_
      · rw [← output, Function.update_eq_self]
        rfl
      · rw [rank_printing, point, own, count]
        exact Nat.lt_succ_self _
  | prints line =>
    rename_i text left'
    have enters := good.enters (by rw [point]; simp) phase
    refine ⟨{ world.reach (printing left') with
      output := Function.update world.output world.pid (world.output world.pid ++ text) }, ?_, ?_⟩
    · unfold World.go
      rw [point]
      dsimp only
      rw [enters]
      rfl
    · refine good.reader_user among own phase (by rw [point]; simp) rfl rfl rfl (state_printing _)
        (reader.printing ?_) (own ▸ whole) ?_
      · rw [output, List.append_assoc]
        exact line
      · rw [rank_printing, point]
        exact Nat.lt_succ_self _
  | exits =>
    have runs := good.runs below (by rw [point]; simp)
    obtain ⟨kernel, ran, stays, shows⟩ := good.shows.exited runs phase 0
    refine ⟨{ world.reach .exited with kernel }, go_exit point ran chance, ?_⟩
    have good' := @Good.reader_moves world { world.reach .exited with kernel } scene left sent reader good among own .exited .user
      (scene.boxes world.pid) [reader.letter] reader.line rfl
        (by rw [← output, Function.update_eq_self]; rfl) shows .exited (own ▸ whole) nofun
    refine good.turn good' stays (by omega) (fun other apart => Function.update_of_ne apart _ _)
      (fun other apart => (Scene.put_other apart).2.1) ?_
    rw [point]
    show rank _ (Function.update world.point world.pid .exited world.pid) _ < 1
    rw [Function.update_self]
    exact Nat.zero_lt_one
  | exited =>
    exact ⟨world, go_exited point chance, good.idle good.shows ⟨rfl, Nat.le_refl _⟩ rfl rfl (.inr (.inl point))⟩

end Turns

end Navy.TestIpc
