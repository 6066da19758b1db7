import Navy.Proofs.SchedRuns

/-! The scheduler takes turns: a run of it is a path on the ring of processes,
and what holds between two turns on such a path holds of it. -/

namespace Navy

open Outcome Rotation

/-- Process 0 never exits. -/
def UserExits (sched : Sched) (action : SchedAction) : Prop := ∀ rbx, action = .exit rbx → sched.currentPid ≠ 0

/-- The process a step selects. -/
def FrameRecord.selects : FrameRecord → Option Nat
  | .switched _ _ into _ => some into
  | _ => none

/-- The states passed through from one on, and the processes selected. -/
inductive Turns (start : Sched) : List Sched → List Nat → Sched → Prop where
  | start : Turns start [start] [] start
  | step {visited : List Sched} {selected : List Nat} {sched after : Sched} {action : SchedAction} {record : FrameRecord}
      (before : Turns start visited selected sched) (fine : UserExits sched action)
      (ran : schedAct sched action = .ok (record, after)) :
      Turns start (visited ++ [after]) (selected ++ record.selects.toList) after

/-- One step is one move on the ring, and process 0 goes on running. -/
theorem Table.moved {sched after : Sched} {table : List Process} {action : SchedAction} {record : FrameRecord}
    (valid : Table sched table) (kernel : Runnable sched 0) (fine : UserExits sched action)
    (ran : schedAct sched action = .ok (record, after)) :
    ∃ list, Table after list ∧ Runnable after 0 ∧ Rotation.Move sched.ring record.selects after.ring := by
  obtain ⟨list, shows, acted⟩ := valid.sched_act ran
  have grown : sched.ring.count = table.length ∧ after.ring.count = list.length :=
    ⟨valid.shows.length, shows.shows.length⟩
  refine ⟨list, shows, ?_⟩
  cases acted with
  | quiet stays =>
    have alive (pid : Nat) : Runnable after pid ↔ Runnable sched pid := by rw [shows.runnable, valid.runnable]
    refine ⟨(alive 0).mpr kernel, .change stays ?_ fun member _ => (alive member).mp⟩
    rw [grown.1, grown.2]
  | switched found switch =>
    rename_i regs installed process
    obtain ⟨resumed, yielded, yields, first⟩ := valid.yield_first kernel regs
    obtain ⟨⟨again, final⟩, yield, rest⟩ := bind_ok ran
    obtain ⟨rfl, rfl⟩ := Prod.mk.inj (Except.ok.inj (yields.symm.trans yield))
    obtain ⟨-, rfl⟩ := Prod.mk.inj (Except.ok.inj rest)
    have ring := valid.ring_saved found shows
    have alive : Runnable yielded 0 ↔ Runnable sched 0 := iff_of_eq (congrArg (fun ring => ring.alive 0) ring)
    rw [ring]
    exact ⟨alive.mpr kernel, .select (first switch.due)⟩
  | pushed built stays =>
    have alive (pid : Nat) (inside : pid < table.length) : Runnable after pid ↔ Runnable sched pid := by
      rw [shows.runnable, valid.runnable, List.getElem?_append_left inside]
    refine ⟨(alive 0 (Nat.zero_lt_of_lt valid.current)).mpr kernel, .change stays ?_ fun member inside => ?_⟩
    · rw [grown.1, grown.2, List.length_append]
      exact Nat.le_add_right _ _
    · exact (alive member (grown.1 ▸ inside)).mp
  | exited found stays =>
    have alive (pid : Nat) (other : pid ≠ sched.currentPid) : Runnable after pid ↔ Runnable sched pid := by
      rw [shows.runnable, valid.runnable, List.getElem?_set_ne (Ne.symm other)]
    refine ⟨(alive 0 (Ne.symm (fine _ rfl))).mpr kernel, .change stays ?_ fun member inside living => ?_⟩
    · rw [grown.1, grown.2, List.length_set]
    · by_cases other : member = sched.currentPid
      · subst other
        obtain ⟨process, member, running⟩ := shows.runnable.mp living
        rw [List.getElem?_set_self valid.current] at member
        rw [← Option.some.inj member] at running
        cases running
      · exact (alive member other).mp living

theorem SchedRun.kernel_runs {sched : Sched} {history : List FrameRecord} (run : SchedRun UserExits sched history) :
    Runnable sched 0 := by
  induction run with
  | boot ran =>
    exact (Table.init ran).runnable.mpr ⟨_, rfl, rfl⟩
  | step before fine ran ih =>
    obtain ⟨table, valid, -⟩ := before.table
    obtain ⟨list, -, kernel, -⟩ := valid.moved ih fine ran
    exact kernel

theorem Turns.path {start finish : Sched} {visited : List Sched} {selected : List Nat} {table : List Process}
    (turns : Turns start visited selected finish) (valid : Table start table) (kernel : Runnable start 0) :
    (∃ list, Table finish list) ∧ Runnable finish 0 ∧
      Path start.ring (visited.map Sched.ring) selected finish.ring := by
  induction turns with
  | start => exact ⟨⟨table, valid⟩, kernel, .start⟩
  | step before fine ran ih =>
    obtain ⟨⟨list, shows⟩, alive, path⟩ := ih
    obtain ⟨list, shows, alive, moved⟩ := shows.moved alive fine ran
    rw [List.map_append]
    exact ⟨⟨list, shows⟩, alive, path.move moved⟩

/-- The search of a switch finds the first running process after the current
one, so between two turns of a process every process that stays has one turn. -/
theorem round_robin {sched : Sched} {history : List FrameRecord} (run : SchedRun UserExits sched history) :
    sched.currentPid < sched.processes.length ∧
    (∃ next, seekRunning sched.processes.length sched = .ok { sched with currentPid := next } ∧
      FirstAfter sched.ring next) ∧
    (∀ regs, ∃ installed after, yieldTask sched regs = .ok (installed, after) ∧
      (switchTick ≤ sched.tick → FirstAfter sched.ring after.currentPid)) ∧
    ∀ visited selected finish action saved out installed after, Turns sched visited selected finish →
      sched.currentPid ∉ selected → UserExits finish action →
      schedAct finish action = .ok (.switched out saved sched.currentPid installed, after) →
      selected.Nodup ∧ ∀ pid, pid ≠ sched.currentPid → (∀ state ∈ visited, Runnable state pid) →
        selected.count pid = 1 := by
  obtain ⟨table, valid, -⟩ := run.table
  have kernel := run.kernel_runs
  refine ⟨valid.inside, ?_, valid.yield_first kernel, ?_⟩
  · obtain ⟨next, first⟩ := valid.first_after kernel
    exact ⟨next, valid.seek_found first, first⟩
  · intro visited selected finish action saved out installed after turns waits fine ran
    obtain ⟨⟨list, shows⟩, alive, path⟩ := turns.path valid kernel
    obtain ⟨-, -, -, moved⟩ := shows.moved alive fine ran
    have again : FirstAfter finish.ring sched.currentPid := by
      generalize after.ring = ring at moved
      cases moved with
      | select first => exact first
    obtain ⟨nodup, once⟩ := path.fair valid.inside waits again
    refine ⟨nodup, fun pid other throughout => once pid other fun ring among => ?_⟩
    obtain ⟨state, visited, rfl⟩ := List.mem_map.mp among
    exact ⟨(throughout state visited).1, throughout state visited⟩

theorem round_robin_two : ∃ sched, sched.processes.length = 2 ∧ ∃ next, seekRunning 2 sched =
    .ok { sched with currentPid := next } ∧
    FirstAfter sched.ring next := by
  obtain ⟨sched, run, two, -⟩ := two_tasks UserExits fun _ => nofun
  obtain ⟨-, found, -⟩ := round_robin run
  rw [two] at found
  exact ⟨sched, two, found⟩

end Navy
