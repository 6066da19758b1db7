import Navy.Library.Endless
import Navy.Proofs.TestOutput

/-! The test program comes to its end. Every turn that leads on makes the weight of
what is left smaller, so from some time on no turn does; a process that then still
ran would have its turn, with something to do in it. -/

namespace Navy.TestIpc
open Outcome Rotation

/-- A run without end, from the boot on. -/
structure Schedule (world : Nat → World) (event : Nat → Event) : Prop where
  starts : ∃ cr3 answer sched, schedInit .zero cr3 answer = .ok sched ∧ world 0 = .start sched
  steps : ∀ time, (world time).step (event time) = .ok (world (time + 1))

def Goes (event : Nat → Event) (time : Nat) : Prop := ∃ chance, event time = .go chance

def Ticks (event : Nat → Event) (time : Nat) : Prop := ∃ regs, event time = .tick regs

/-- The ticks that end a turn. -/
def Switches (world : Nat → World) (event : Nat → Event) (time : Nat) : Prop :=
  Ticks event time ∧ (world time).kernel.sched.tick = switchTick

/-- The timer ticks again and again, and a process goes on in each of its turns. -/
structure Fair (world : Nat → World) (event : Nat → Event) : Prop where
  ticks : ∀ time, ∃ later, time ≤ later ∧ Ticks event later
  acts : Acting (Switches world event) (Goes event)

section Finish

variable {world : Nat → World} {event : Nat → Event} {scene : Scene} {left start time later : Nat}
  {sent : Nat → List Ipc}

theorem Schedule.reached (schedule : Schedule world event) (time : Nat) : Reached (world time) := by
  induction time with
  | zero =>
    obtain ⟨cr3, answer, sched, boot, first⟩ := schedule.starts
    rw [first]
    exact ⟨cr3, answer, sched, [], boot, .nil⟩
  | succ time ih => exact ih.next (schedule.steps time)

theorem Schedule.goes (schedule : Schedule world event) (goes : Goes event time)
    (good : Good (world time) scene left sent) :
    Turn (world time) scene left sent (world (time + 1)) := by
  obtain ⟨chance, event⟩ := goes
  have ran := schedule.steps time
  rw [event] at ran
  exact (good.go chance).ran ran

theorem Schedule.ticks (schedule : Schedule world event) (ticks : Ticks event time)
    (good : Good (world time) scene left sent) :
    Good (world (time + 1)) scene left sent ∧ (world (time + 1)).point = (world time).point ∧
      ((world time).kernel.sched.tick < switchTick ∧ (world (time + 1)).pid = (world time).pid ∧
          (world (time + 1)).kernel.sched.tick = (world time).kernel.sched.tick + 1 ∨
        (world time).kernel.sched.tick = switchTick ∧ FirstAfter (world time).kernel.sched.ring
        (world (time + 1)).pid) := by
  obtain ⟨regs, event⟩ := ticks
  have ran := schedule.steps time
  rw [event] at ran
  obtain ⟨after, returns, ticked⟩ := good.ticks regs
  obtain rfl := Except.ok.inj (ran.symm.trans returns)
  exact ticked

theorem goes_or_ticks (event : Nat → Event) (time : Nat) : Goes event time ∨ Ticks event time := by
  cases happens : event time with
  | go chance => exact .inl ⟨chance, happens⟩
  | tick regs => exact .inr ⟨regs, happens⟩

theorem Goes.not_ticks (goes : Goes event time) : ¬ Ticks event time := by
  rintro ⟨regs, ticks⟩
  obtain ⟨chance, goes⟩ := goes
  rw [goes] at ticks
  cases ticks

theorem Good.weight {world after : World} (good : Good world scene left sent) (good' : Good after scene left sent)
    (points : after.point = world.point) : weight after = weight world := by
  unfold TestIpc.weight
  rw [points, good.shows.phase, good'.shows.phase]

theorem Schedule.falls (schedule : Schedule world event) (time : Nat) :
    weight (world (time + 1)) ≤ weight (world time) := by
  obtain ⟨scene, left, sent, good⟩ := (schedule.reached time).good
  cases goes_or_ticks event time with
  | inl goes =>
    cases (schedule.goes goes good).leads with
    | inl less => exact Nat.le_of_lt less
    | inr idle => exact Nat.le_of_eq (good.weight idle.2.2 idle.2.1)
  | inr ticks =>
    obtain ⟨good', points, -⟩ := schedule.ticks ticks good
    exact Nat.le_of_eq (good.weight good' points)

/-- Where the weight stays, a turn finds nothing to do. -/
theorem Schedule.idles (schedule : Schedule world event)
    (stable : weight (world (time + 1)) = weight (world time)) (goes : Goes event time)
    (good : Good (world time) scene left sent) :
    Idle ((world time).point (world time).pid) (scene.phase (world time).pid) (scene.boxes (world time).pid) ∧
      (world (time + 1)).point = (world time).point ∧ Good (world (time + 1)) scene left sent := by
  cases (schedule.goes goes good).leads with
  | inl less => exact absurd stable (Nat.ne_of_lt less)
  | inr idle => exact idle

/-- Once the weight stays, everything does but whose turn it is. -/
theorem Schedule.settles (schedule : Schedule world event)
    (stable : ∀ time, start ≤ time → weight (world time) = weight (world start))
    (good : Good (world start) scene left sent) (beyond : start ≤ time) :
    Good (world time) scene left sent ∧ (world time).point = (world start).point := by
  induction time, beyond using Nat.le_induction with
  | base => exact ⟨good, rfl⟩
  | succ time beyond ih =>
    obtain ⟨good', points⟩ := ih
    cases goes_or_ticks event time with
    | inl goes =>
      have same := (stable (time + 1) (Nat.le_succ_of_le beyond)).trans (stable time beyond).symm
      obtain ⟨-, kept, rests⟩ := schedule.idles same goes good'
      exact ⟨rests, kept.trans points⟩
    | inr ticks =>
      obtain ⟨rests, kept, -⟩ := schedule.ticks ticks good'
      exact ⟨rests, kept.trans points⟩

/-- The clock does not go back before the next tick. -/
theorem Schedule.waits (schedule : Schedule world event) (beyond : time ≤ later)
    (none : ∀ between, time ≤ between → between < later → ¬ Ticks event between) :
    (world time).kernel.sched.tick ≤ (world later).kernel.sched.tick := by
  induction later, beyond using Nat.le_induction with
  | base => exact Nat.le_refl _
  | succ later beyond ih =>
    have before := ih fun between after early => none between after (Nat.lt_succ_of_lt early)
    obtain ⟨scene, left, sent, good⟩ := (schedule.reached later).good
    cases goes_or_ticks event later with
    | inl goes => exact Nat.le_trans before (schedule.goes goes good).stays.tick
    | inr ticks => exact absurd ticks (none later beyond (Nat.lt_succ_self later))

/-- No turn lasts for ever. -/
theorem Schedule.switches (schedule : Schedule world event) (fair : Fair world event) (time : Nat) :
    ∃ later, time ≤ later ∧ Switches world event later := by
  classical
  induction left : switchTick - (world time).kernel.sched.tick using Nat.strong_induction_on generalizing time with
  | _ left ih =>
    have found := fair.ticks time
    obtain ⟨beyond, ticks⟩ := Nat.find_spec found
    have clock := schedule.waits beyond fun between after early tick => Nat.find_min found early ⟨after, tick⟩
    generalize Nat.find found = next at beyond ticks clock
    obtain ⟨scene, sends, sent, good⟩ := (schedule.reached next).good
    obtain ⟨-, -, ⟨early, -, later⟩ | ⟨due, -⟩⟩ := schedule.ticks ticks good
    · obtain ⟨last, after, switches⟩ := ih (switchTick - (world (next + 1)).kernel.sched.tick) (by omega) (next + 1) rfl
      exact ⟨last, by omega, switches⟩
    · exact ⟨next, beyond, ticks, due⟩

/-- From the time on at which everything stays, the processes take turns on one ring. -/
theorem Schedule.endless (schedule : Schedule world event) (fair : Fair world event)
    (stable : ∀ time, start ≤ time → weight (world time) = weight (world start))
    (good : Good (world start) scene left sent) :
    Endless scene.states.length (fun pid => scene.states[pid]? = some .running) (fun time => (world time).pid)
      (Switches world event) start where
  inside time beyond := (schedule.settles stable good beyond).1.current
  again := schedule.switches fair
  moves time beyond switches := by
    obtain ⟨good', -⟩ := schedule.settles stable good beyond
    obtain ⟨-, -, ⟨early, -⟩ | ⟨-, first⟩⟩ := schedule.ticks switches.1 good'
    · exact absurd switches.2 (Nat.ne_of_lt early)
    · rw [good'.shows.ring] at first
      exact first
  stays time beyond none := by
    obtain ⟨good', -⟩ := schedule.settles stable good beyond
    cases goes_or_ticks event time with
    | inl goes => exact (schedule.goes goes good').stays.current
    | inr ticks =>
      obtain ⟨-, -, ⟨-, same, -⟩ | ⟨due, -⟩⟩ := schedule.ticks ticks good'
      · exact same
      · exact absurd ⟨ticks, due⟩ none

/-- At rest, a process that has not exited has nothing to do. -/
theorem Schedule.rested {pid : Nat} (schedule : Schedule world event) (fair : Fair world event)
    (stable : ∀ time, start ≤ time → weight (world time) = weight (world start))
    (good : Good (world start) scene left sent) (created : pid < scene.states.length)
    (lives : (world start).point pid ≠ .exited) :
    Idle ((world start).point pid) (scene.phase pid) (scene.boxes pid) := by
  have alive := good.runs created lives
  obtain ⟨time, beyond, goes, own⟩ := (schedule.endless fair stable good).served fair.acts alive created
    (Nat.le_refl start)
  obtain ⟨good', points⟩ := schedule.settles stable good beyond
  have same := (stable (time + 1) (Nat.le_succ_of_le beyond)).trans (stable time beyond).symm
  obtain ⟨idle, -⟩ := schedule.idles same goes good'
  rw [own, points] at idle
  exact idle

/-- A sender with nothing left to do has sent both letters. -/
theorem Sends.ends {point : Point} {phase : Phase} {box one two : List Ipc} (sends : Sends point phase one two)
    (rests : point ≠ .exited → Idle point phase box) : point = .exited ∧ one = [letterOne] ∧ two = [letterTwo] := by
  cases sends with
  | exited => exact ⟨rfl, rfl, rfl⟩
  | _ => obtain here | here | ⟨here | here, -⟩ := rests nofun <;> cases here

/-- A receiver with nothing left to do does not wait for a letter that was sent. -/
theorem Reader.Stage.ends {reader : Reader} {point : Point} {phase : Phase} {box got : List Ipc}
    {output : List (BitVec 8)} (stage : reader.Stage point phase got output)
    (among : reader ∈ [readerOne, readerTwo]) (whole : got ++ box = [reader.letter])
    (rests : point ≠ .exited → Idle point phase box) : point = .exited := by
  cases stage with
  | exited => rfl
  | main | prints | exits => obtain here | here | ⟨here | here, -⟩ := rests nofun <;> cases here
  | logs =>
    obtain ⟨⟨number, format, args, logs, -⟩, -⟩ := reader.tells
    rw [logs] at rests
    obtain here | here | ⟨here | here, -⟩ := rests nofun <;> cases here
  | waits =>
    obtain here | here | ⟨-, -, empty⟩ := rests reader.stays
    · obtain ⟨-, -, -, same | same⟩ := reader.rank_wait among 0 <;> rw [same] at here <;> cases here
    · exact here
    · rw [empty] at whole
      cases whole
  | pops =>
    obtain here | here | ⟨-, user, -⟩ := rests reader.stays
    · obtain ⟨-, -, -, same | same⟩ := reader.rank_wait among 0 <;> rw [same] at here <;> cases here
    · exact here
    · cases user

/-- Where no process has anything to do, all have been pushed and all have exited. -/
theorem Good.ends {world : World} (good : Good world scene left sent)
    (rests : ∀ pid, pid < scene.states.length → world.point pid ≠ .exited → Idle (world.point pid) (scene.phase pid)
      (scene.boxes pid)) :
    ∀ pid ∈ [1, 2, 3], world.point pid = .exited := by
  have some : 0 < scene.states.length := Nat.lt_of_le_of_lt (Nat.zero_le _) good.current
  have pushed := rests 0 some (by rw [good.kernel]; simp)
  rw [good.kernel] at pushed
  have none : left = 0 := by
    obtain here | here | ⟨here | here, -⟩ := pushed
    · exact Point.kmain.inj here
    all_goals cases here
  have created := good.created
  obtain ⟨exited, one, two⟩ := good.sends.ends (rests 3 (by omega))
  have reads (reader : Reader) (among : reader ∈ [readerOne, readerTwo]) (letter : sent reader.pid = [reader.letter]) :
      world.point reader.pid = .exited := by
    obtain ⟨⟨got, stage, whole⟩, -⟩ := good.reads reader among
    apply stage.ends among (whole.trans letter)
    have bounds := Reader.bounds among
    exact rests reader.pid (by omega)
  intro pid among
  simp only [List.mem_cons, List.not_mem_nil, or_false] at among
  rcases among with rfl | rfl | rfl
  · exact reads readerOne (by simp) one
  · exact reads readerTwo (by simp) two
  · exact exited

end Finish

/-- However the timer ticks, when every process goes on in its turns all three
processes exit, and by then each receiver has printed the whole of its line. -/
theorem test_finishes {world : Nat → World} {event : Nat → Event} (schedule : Schedule world event)
    (fair : Fair world event) :
    ∃ start, ∀ time, start ≤ time → (∀ pid ∈ [1, 2, 3], (world time).point pid = .exited) ∧
      (world time).output 1 = lineOne ∧ (world time).output 2 = lineTwo := by
  obtain ⟨start, stable⟩ := @rests (fun time => weight (world time)) schedule.falls
  obtain ⟨scene, left, sent, good⟩ := (schedule.reached start).good
  have ends := good.ends fun pid created lives => schedule.rested fair stable good created lives
  refine ⟨start, fun time beyond => ?_⟩
  obtain ⟨good', points⟩ := schedule.settles stable good beyond
  rw [← points] at ends
  refine ⟨ends, ?_, ?_⟩
  · exact (@Good.prints (world time) scene left sent readerOne good' (by simp)).2 (ends 1 (by simp))
  · exact (@Good.prints (world time) scene left sent readerTwo good' (by simp)).2 (ends 2 (by simp))

theorem alternating_fair (world : Nat → World) : Fair world alternating where
  ticks time := ⟨2 * time + 1, by omega, .zero, if_neg (by omega)⟩
  acts time switches := by
    have odd : time % 2 ≠ 0 := by
      intro even
      obtain ⟨regs, ticks⟩ := switches.1
      rw [show alternating time = _ from if_pos even] at ticks
      cases ticks
    have goes : Goes alternating (time - 1) := ⟨_, if_pos (by omega)⟩
    refine ⟨time - 1, by omega, goes, fun between after before => ?_⟩
    have same : between = time - 1 := by omega
    rw [same]
    exact fun switches => goes.not_ticks switches.1

theorem test_finishes_alternating : ∃ sched, schedInit .zero 0 heapBlock = .ok sched ∧
    ∃ start, ∀ time, start ≤ time → (∀ pid ∈ [1, 2, 3],
      ((World.start sched).after alternating time).point pid = .exited) ∧
      ((World.start sched).after alternating time).output 1 = lineOne ∧
      ((World.start sched).after alternating time).output 2 = lineTwo := by
  obtain ⟨sched, boot⟩ : ∃ sched, schedInit .zero 0 heapBlock = .ok sched := ⟨_, rfl⟩
  have schedule : Schedule ((World.start sched).after alternating) alternating :=
    ⟨⟨0, heapBlock, sched, boot, rfl⟩, fun time => (after_steps boot alternating_granted time).2⟩
  exact ⟨sched, boot, test_finishes schedule (alternating_fair _)⟩

end Navy.TestIpc
