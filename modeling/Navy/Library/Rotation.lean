import Mathlib.Data.List.Nodup
import Mathlib.Data.List.Count

/-! Taking turns on a ring that grows and whose members drop out for good. The
cursor moves to the first live member after it; between two turns of one member
every member that stays gets exactly one. -/

namespace Rotation

structure Ring where
  count : Nat
  alive : Nat → Prop
  cursor : Nat

/-- `next` is the first live member strictly after the cursor, going round. -/
def FirstAfter (ring : Ring) (next : Nat) : Prop :=
  ∃ steps, 0 < steps ∧ steps ≤ ring.count ∧ next = (ring.cursor + steps) % ring.count ∧ ring.alive next ∧
    ∀ fewer, 0 < fewer → fewer < steps → ¬ ring.alive ((ring.cursor + fewer) % ring.count)

inductive Move (ring : Ring) : Option Nat → Ring → Prop where
  /-- Members join at the end, others drop out. -/
  | change {after : Ring} (cursor : after.cursor = ring.cursor) (grown : ring.count ≤ after.count)
      (fewer : ∀ member, member < ring.count → after.alive member → ring.alive member) : Move ring none after
  | select {next : Nat} (first : FirstAfter ring next) : Move ring (some next) { ring with cursor := next }

/-- The rings passed through and the members selected. -/
inductive Path (start : Ring) : List Ring → List Nat → Ring → Prop where
  | start : Path start [start] [] start
  | move {visited : List Ring} {selected : List Nat} {ring after : Ring} {choice : Option Nat}
      (before : Path start visited selected ring) (moved : Move ring choice after) :
      Path start (visited ++ [after]) (selected ++ choice.toList) after

theorem FirstAfter.split {ring : Ring} {next : Nat} (first : FirstAfter ring next) (inside : ring.cursor < ring.count) :
    next < ring.count ∧ ring.alive next ∧
      (ring.cursor < next ∧ (∀ member, ring.cursor < member → member < next → ¬ ring.alive member) ∨
        next ≤ ring.cursor ∧ (∀ member, ring.cursor < member → member < ring.count → ¬ ring.alive member) ∧
          ∀ member, member < next → ¬ ring.alive member) := by
  obtain ⟨steps, some, few, rfl, alive, none⟩ := first
  refine ⟨Nat.mod_lt _ (by omega), alive, ?_⟩
  have straight {member : Nat} (after : ring.cursor < member) (below : member < ring.count)
      (close : member < ring.cursor + steps) : ¬ ring.alive member := by
    have at_ := none (member - ring.cursor) (by omega) (by omega)
    rwa [show ring.cursor + (member - ring.cursor) = member by omega, Nat.mod_eq_of_lt below] at at_
  by_cases wraps : ring.cursor + steps < ring.count
  · refine .inl ?_
    rw [Nat.mod_eq_of_lt wraps]
    exact ⟨by omega, fun member after before => straight after (by omega) before⟩
  · refine .inr ?_
    have landed : (ring.cursor + steps) % ring.count = ring.cursor + steps - ring.count := by
      rw [Nat.mod_eq_sub_mod (by omega), Nat.mod_eq_of_lt (by omega)]
    rw [landed]
    refine ⟨by omega, fun member after below => straight after below (by omega), fun member before => ?_⟩
    have at_ := none (ring.count - ring.cursor + member) (by omega) (by omega)
    rwa [show ring.cursor + (ring.count - ring.cursor + member) = ring.count + member by omega,
      Nat.add_mod_left, Nat.mod_eq_of_lt (by omega)] at at_

theorem Move.inside {ring after : Ring} {choice : Option Nat} (moved : Move ring choice after)
    (inside : ring.cursor < ring.count) : after.cursor < after.count ∧ ring.count ≤ after.count := by
  cases moved with
  | change cursor grown fewer => exact ⟨by omega, grown⟩
  | select first => exact ⟨(first.split inside).1, Nat.le_refl _⟩

namespace Path

variable {start finish : Ring} {visited : List Ring} {selected : List Nat}

theorem inside (path : Path start visited selected finish) (inside : start.cursor < start.count) :
    finish.cursor < finish.count ∧ start.count ≤ finish.count := by
  induction path with
  | start => exact ⟨inside, Nat.le_refl _⟩
  | move before moved ih =>
    obtain ⟨cursor, grown⟩ := moved.inside ih.1
    exact ⟨cursor, Nat.le_trans ih.2 grown⟩

/-- Who is alive at the end was alive all along. -/
theorem alive_before (path : Path start visited selected finish) (inside : start.cursor < start.count) {member : Nat}
    (old : member < start.count) (alive : finish.alive member) : ∀ ring ∈ visited, ring.alive member := by
  induction path with
  | start => simpa using alive
  | move before moved ih =>
    have grown := (before.inside inside).2
    intro ring among
    rcases List.mem_append.mp among with earlier | last
    · refine ih ?_ ring earlier
      cases moved with
      | change cursor count fewer => exact fewer member (by omega) alive
      | select first => exact alive
    · rw [List.mem_singleton.mp last]
      exact alive

theorem finish_visited (path : Path start visited selected finish) : finish ∈ visited := by
  cases path with
  | start => simp
  | move before moved => simp

/-- The members the cursor has passed since it stood at `turn`: it has moved up
only, or it has gone round and not come back. -/
def Swept (turn cursor member : Nat) : Prop :=
  turn ≤ cursor ∧ turn < member ∧ member ≤ cursor ∨ cursor < turn ∧ (turn < member ∨ member ≤ cursor)

/-- One selection sweeps over the selected member and over dead ones. -/
private theorem swept_select {ring : Ring} {turn next : Nat} (first : FirstAfter ring next)
    (inside : ring.cursor < ring.count) (present : turn < ring.count) (alive : ring.alive turn) (other : next ≠ turn) :
    ¬ Swept turn ring.cursor next ∧ Swept turn next next ∧
      (∀ member, Swept turn ring.cursor member → Swept turn next member) ∧
      ∀ member, member < ring.count → ring.alive member → Swept turn next member →
        Swept turn ring.cursor member ∨ member = next := by
  obtain ⟨-, -, ⟨up, dead⟩ | ⟨down, above, below⟩⟩ := first.split inside
  · have kept : ¬ (ring.cursor < turn ∧ turn < next) := fun both => dead turn both.1 both.2 alive
    refine ⟨?_, ?_, fun member swept => ?_, fun member lives living swept => ?_⟩
    · unfold Swept; omega
    · unfold Swept; omega
    · unfold Swept at swept ⊢; omega
    · have here : ¬ (ring.cursor < member ∧ member < next) := fun both => dead member both.1 both.2 living
      unfold Swept at swept ⊢
      omega
  · have early : ¬ turn < next := fun before => below turn before alive
    have late : ¬ ring.cursor < turn := fun after => above turn after present alive
    refine ⟨?_, ?_, fun member swept => ?_, fun member lives living swept => ?_⟩
    · unfold Swept; omega
    · unfold Swept; omega
    · unfold Swept at swept ⊢; omega
    · have high : ¬ ring.cursor < member := fun after => above member after lives living
      have low : ¬ member < next := fun before => below member before living
      unfold Swept at swept ⊢
      omega

/-- The members swept over that are still there are the ones selected, once each. -/
theorem swept (path : Path start visited selected finish) (inside : start.cursor < start.count)
    (alive : ∀ ring ∈ visited, ring.alive start.cursor) (waits : start.cursor ∉ selected) :
    selected.Nodup ∧ (∀ member ∈ selected, Swept start.cursor finish.cursor member) ∧
      ∀ member, (∀ ring ∈ visited, member < ring.count ∧ ring.alive member) →
        Swept start.cursor finish.cursor member → member ∈ selected := by
  induction path with
  | start =>
    refine ⟨List.nodup_nil, by simp, fun member _ swept => ?_⟩
    unfold Swept at swept
    omega
  | move before moved ih =>
    rename_i visited selected ring after choice
    have bounds := before.inside inside
    have mine := alive ring (by simp [before.finish_visited])
    obtain ⟨nodup, only, all⟩ := ih (fun ring among => alive ring (by simp [among])) fun early =>
      waits (by simp [early])
    cases moved with
    | change cursor grown fewer =>
      simp only [Option.toList_none, List.append_nil, cursor]
      exact ⟨nodup, only, fun member there => all member fun ring among => there ring (by simp [among])⟩
    | select first =>
      rename_i next
      have other : next ≠ start.cursor := fun same => waits (by simp [same])
      obtain ⟨fresh, swept, more, less⟩ := swept_select first bounds.1 (by omega) mine other
      simp only [Option.toList_some]
      refine ⟨?_, ?_, ?_⟩
      · refine List.nodup_append.mpr ⟨nodup, List.nodup_singleton _, ?_⟩
        rintro member early last late rfl
        rw [List.mem_singleton.mp late] at early
        exact fresh (only next early)
      · intro member among
        rcases List.mem_append.mp among with early | last
        · exact more member (only member early)
        · rw [List.mem_singleton.mp last]
          exact swept
      · intro member there passed
        obtain ⟨lives, living⟩ := there ring (by simp [before.finish_visited])
        rcases less member lives living passed with early | rfl
        · exact List.mem_append_left _ (all member (fun ring among => there ring (by simp [among])) early)
        · exact List.mem_append_right _ (List.mem_singleton_self _)

/-- Between two turns of one member nobody has two, and whoever stays has one. -/
theorem fair (path : Path start visited selected finish) (inside : start.cursor < start.count)
    (waits : start.cursor ∉ selected) (again : FirstAfter finish start.cursor) :
    selected.Nodup ∧ ∀ member, member ≠ start.cursor → (∀ ring ∈ visited, member < ring.count ∧ ring.alive member) →
      selected.count member = 1 := by
  have bounds := path.inside inside
  obtain ⟨-, alive, going⟩ := again.split bounds.1
  have throughout := path.alive_before inside inside alive
  obtain ⟨nodup, -, all⟩ := path.swept inside throughout waits
  refine ⟨nodup, fun member other there => List.count_eq_one_of_mem nodup (all member there ?_)⟩
  obtain ⟨lives, living⟩ := there finish path.finish_visited
  rcases going with ⟨up, dead⟩ | ⟨down, above, below⟩
  · have here : ¬ (finish.cursor < member ∧ member < start.cursor) := fun both => dead member both.1 both.2 living
    unfold Swept
    omega
  · have high : ¬ finish.cursor < member := fun after => above member after lives living
    have low : ¬ member < start.cursor := fun before => below member before living
    unfold Swept
    omega

end Path

end Rotation
