import Navy.Scheduling
import Navy.Library.Rotation
import Navy.Proofs.ProcessTable
import Mathlib.Data.Nat.Find

/-! What one step of the scheduler does to the table, the cursor and the frames. -/

namespace Navy

open Outcome Rotation

def Runnable (sched : Sched) (pid : Nat) : Prop :=
  pid < sched.processes.length ∧ ∃ process, sched.processes.get pid = .ok process ∧ process.state = .running

/-- The process table as a ring of processes taking turns. -/
def Sched.ring (sched : Sched) : Ring := ⟨sched.processes.length, Runnable sched, sched.currentPid⟩

namespace Table

variable {sched after : Sched} {table : List Process}

theorem runnable (valid : Table sched table) {pid : Nat} :
    Runnable sched pid ↔ ∃ process, table[pid]? = some process ∧ process.state = .running := by
  constructor
  · rintro ⟨inside, process, got, alive⟩
    rw [valid.shows.length] at inside
    exact ⟨process, valid.get got inside, alive⟩
  · rintro ⟨process, found, alive⟩
    refine ⟨?_, process, valid.shows.get_some found, alive⟩
    rw [valid.shows.length]
    exact (List.getElem?_eq_some_iff.mp found).1

theorem inside (valid : Table sched table) : sched.ring.cursor < sched.ring.count :=
  Nat.lt_of_lt_of_eq valid.current valid.shows.length.symm

theorem next_pid (valid : Table sched table) :
    Table (nextPid sched) table ∧ (nextPid sched).currentPid = (sched.currentPid + 1) % table.length := by
  have current := valid.current
  have length := valid.shows.length
  have place : (nextPid sched).currentPid = (sched.currentPid + 1) % table.length := by
    unfold nextPid
    dsimp only
    split
    next last =>
      rw [last, length, Nat.mod_self]
    next inner => rw [Nat.mod_eq_of_lt (by omega)]
  refine ⟨⟨valid.shows, valid.pids, valid.last, ?_⟩, place⟩
  rw [place]
  exact Nat.mod_lt _ (by omega)

/-- The search stops at the first running process, however far within its fuel. -/
theorem seek_first {fuel steps : Nat} (valid : Table sched table) (positive : 0 < steps) (few : steps ≤ fuel)
    (alive : Runnable sched ((sched.currentPid + steps) % table.length))
    (skipped : ∀ fewer, 0 < fewer → fewer < steps → ¬ Runnable sched ((sched.currentPid + fewer) % table.length)) :
    seekRunning fuel sched = .ok { sched with currentPid := (sched.currentPid + steps) % table.length } := by
  induction fuel generalizing sched steps with
  | zero => omega
  | succ fuel ih =>
    obtain ⟨next, place⟩ := valid.next_pid
    have current : (nextPid sched).currentPid < table.length := next.current
    obtain ⟨process, found⟩ : ∃ process, table[(nextPid sched).currentPid]? = some process :=
      ⟨_, List.getElem?_eq_getElem current⟩
    have got := next.shows.get_some found
    have first : process.state = .running ↔ Runnable sched ((sched.currentPid + 1) % table.length) := by
      rw [valid.runnable, ← place]
      constructor
      · exact fun running => ⟨process, found, running⟩
      · rintro ⟨other, member, running⟩
        rwa [Option.some.inj (found.symm.trans member)]
    have around (fewer : Nat) : ((nextPid sched).currentPid + fewer) % table.length =
        (sched.currentPid + (fewer + 1)) % table.length := by
      rw [place, Nat.mod_add_mod]
      congr 1
      omega
    unfold seekRunning
    dsimp only
    rw [got, ok_bind]
    by_cases one : steps = 1
    · subst one
      rw [if_neg (not_not.mpr (first.mpr alive)), ← place]
      rfl
    · have waiting : ¬ process.state = .running := fun running => skipped 1 (by omega) (by omega) (first.mp running)
      have fewer : 0 < steps - 1 := by omega
      have rest := ih next fewer (by omega) (by
        rw [around, show steps - 1 + 1 = steps by omega]
        exact alive) fun fewer more less => by
        rw [around]
        exact skipped (fewer + 1) (by omega) (by omega)
      rw [if_pos waiting, rest, around, show steps - 1 + 1 = steps by omega]
      rfl

/-- With process 0 running every search comes back. -/
theorem first_after (valid : Table sched table) (kernel : Runnable sched 0) : ∃ next, FirstAfter sched.ring next := by
  classical
  have current := valid.current
  have length := valid.shows.length
  let hits (steps : Nat) : Prop := 0 < steps ∧ Runnable sched ((sched.currentPid + steps) % table.length)
  have round : hits (table.length - sched.currentPid) := by
    refine ⟨by omega, ?_⟩
    rw [show sched.currentPid + (table.length - sched.currentPid) = table.length by omega, Nat.mod_self]
    exact kernel
  have found : ∃ steps, hits steps := ⟨_, round⟩
  obtain ⟨positive, alive⟩ := Nat.find_spec found
  refine ⟨(sched.currentPid + Nat.find found) % table.length, Nat.find found, positive, ?_, ?_, alive, ?_⟩
  · have least := Nat.find_min' found round
    show Nat.find found ≤ sched.processes.length
    omega
  · show _ = (sched.currentPid + Nat.find found) % sched.processes.length
    rw [length]
  · intro fewer more less running
    have same : sched.ring.count = table.length := length
    rw [same] at running
    exact Nat.find_min found less ⟨more, running⟩

theorem seek_found (valid : Table sched table) {next : Nat} (first : FirstAfter sched.ring next) :
    seekRunning sched.processes.length sched = .ok { sched with currentPid := next } := by
  obtain ⟨steps, positive, few, rfl, alive, skipped⟩ := first
  have length : sched.ring.count = table.length := valid.shows.length
  have found := valid.seek_first positive few (by rw [← length]; exact alive) fun fewer more less => by
    rw [← length]
    exact skipped fewer more less
  rw [length]
  exact found

theorem push_arguments {process : Process} {arguments : Arguments} {answer : Option Nat} (valid : Table sched table)
    (ran : schedPushProcess sched process arguments answer = .ok after) :
    Table after (table ++ [{ process with pid := table.length, regs := arguments.load process.regs }]) ∧
      after.currentPid = sched.currentPid := by
  cases arguments <;> exact valid.push ran

/-- Saving a frame leaves who can run, so it leaves the turns. -/
theorem ring_saved {process : Process} {regs : Registers} (valid : Table sched table)
    (found : table[sched.currentPid]? = some process)
    (saved : Table after (table.set sched.currentPid { process with regs })) :
    after.ring = { sched.ring with cursor := after.currentPid } := by
  have length : after.processes.length = sched.processes.length := by
    rw [saved.shows.length, valid.shows.length, List.length_set]
  have alive (pid : Nat) : Runnable after pid ↔ Runnable sched pid := by
    rw [saved.runnable, valid.runnable]
    by_cases same : pid = sched.currentPid
    · subst same
      rw [List.getElem?_set_self valid.current, found]
      simp
    · rw [List.getElem?_set_ne (Ne.symm same)]
  unfold Sched.ring
  rw [length, funext fun pid => propext (alive pid)]

/-- With process 0 running a tick always comes back, and when it switches it
takes the first running process after the current one. -/
theorem yield_first (valid : Table sched table) (kernel : Runnable sched 0) (regs : Registers) :
    ∃ installed after, yieldTask sched regs = .ok (installed, after) ∧
      (switchTick ≤ sched.tick → FirstAfter sched.ring after.currentPid) := by
  unfold yieldTask
  dsimp only
  by_cases due : sched.tick + 1 ≥ switchTick + 1
  · obtain ⟨process, found⟩ : ∃ process, table[sched.currentPid]? = some process :=
      ⟨_, List.getElem?_eq_getElem valid.current⟩
    have pid := valid.pids _ _ found
    have counted : Table { sched with tick := 0 } table := ⟨valid.shows, valid.pids, valid.last, valid.current⟩
    have saved : Table { sched with tick := 0, processes := sched.processes.modify sched.currentPid { process with regs } }
        (table.set sched.currentPid { process with regs }) := counted.set pid
    have same := valid.ring_saved found saved
    have alive : Runnable _ 0 := (congrArg (fun ring => ring.alive 0) same).mpr kernel
    obtain ⟨next, first⟩ := saved.first_after alive
    have sought := saved.seek_found first
    rw [same] at first
    have first : FirstAfter sched.ring next := first
    obtain ⟨inside, target, got, -⟩ := (first.split valid.inside).2.1
    have loads : ∃ target, (sched.processes.modify sched.currentPid { process with regs }).get next = .ok target := by
      rw [valid.shows.length, ← List.length_set] at inside
      exact ⟨_, saved.shows.get_some (List.getElem?_eq_getElem inside)⟩
    obtain ⟨target, loads⟩ := loads
    have got := valid.shows.get_some found
    refine ⟨target.regs, { sched with
      tick := 0
      processes := sched.processes.modify sched.currentPid { process with regs }
      currentPid := next, gsBase := next, kernGsBase := next, cr3 := vmmSwitchSpace target.pml }, ?_, fun _ => first⟩
    have save : archContextSave { sched with tick := 0 } sched.currentPid regs = .ok { sched with
        tick := 0, processes := sched.processes.modify sched.currentPid { process with regs } } := by
      unfold archContextSave
      rw [got]
      rfl
    rw [if_pos due, save, ok_bind]
    dsimp only at sought ⊢
    rw [sought, ok_bind]
    unfold archContextSwitch
    dsimp only
    rw [loads]
    simp only [ok_bind, pure_bind, loads]
    rfl
  · rw [if_neg due]
    exact ⟨_, _, rfl, fun late => absurd (Nat.succ_le_succ late) due⟩

end Table

end Navy
