import Mathlib.Logic.Function.Basic
import Mathlib.Data.List.Nodup

/-! Critical sections on one processor. Taking a lock turns interrupts off and
every release turns them on again, so an inner section leaves the rest of the
section around it open to the timer. -/

namespace LockSections

inductive Instr (L : Type u) where
  | acquire (lock : L)
  | release (lock : L)
  | work
deriving DecidableEq

/-- The locking structure of a piece of code. -/
inductive Sect (L : Type u) where
  | plain
  | locked (lock : L) (body : Sect L)
  | seq (first second : Sect L)
  | alt (first second : Sect L)
  | many (body : Sect L)

variable {L : Type u}

/-- What the code may execute. -/
inductive Traces : Sect L → List (Instr L) → Prop where
  | plain (count : Nat) : Traces .plain (List.replicate count .work)
  | locked {lock : L} {body : Sect L} {trace : List (Instr L)} (inside : Traces body trace) :
      Traces (.locked lock body) (.acquire lock :: (trace ++ [.release lock]))
  | seq {first second : Sect L} {one two : List (Instr L)} (before : Traces first one) (after : Traces second two) :
      Traces (.seq first second) (one ++ two)
  | left {first second : Sect L} {trace : List (Instr L)} (taken : Traces first trace) : Traces
    (.alt first second) trace
  | right {first second : Sect L} {trace : List (Instr L)} (taken : Traces second trace) : Traces
    (.alt first second) trace
  | none {body : Sect L} : Traces (.many body) []
  | more {body : Sect L} {one rest : List (Instr L)} (turn : Traces body one) (others : Traces (.many body) rest) :
      Traces (.many body) (one ++ rest)

/-- `past` and `rest` are what each task has executed and has still to execute. -/
structure Cpu (L : Type u) where
  words : L → Bool
  interrupts : Bool
  running : Nat
  past : Nat → List (Instr L)
  rest : Nat → List (Instr L)

variable [DecidableEq L]

/-- The locks a task has taken and not released, the last one first. -/
def sections (past : List (Instr L)) : List L :=
  past.foldl (fun open_ instr =>
    match instr with
    | .acquire lock => lock :: open_
    | .release lock => open_.erase lock
    | .work => open_) []

/-- The last lock instruction was a release. -/
def released (past : List (Instr L)) : Bool :=
  past.foldl (fun last instr =>
    match instr with
    | .acquire _ => false
    | .release _ => true
    | .work => last) false

/-- A section inside another one has ended, the other one has not. -/
def Exposed (past : List (Instr L)) : Prop := sections past ≠ [] ∧ released past = true

instance (past : List (Instr L)) : Decidable (Exposed past) := inferInstanceAs (Decidable (_ ∧ _))

def Cpu.start (rest : Nat → List (Instr L)) : Cpu L := ⟨fun _ => false, true, 0, fun _ => [], rest⟩

/-- The running task executes `instr`, which was the first of its rest. -/
def Cpu.done (cpu : Cpu L) (instr : Instr L) (rest : List (Instr L)) : Cpu L :=
  { cpu with
    past := Function.update cpu.past cpu.running (cpu.past cpu.running ++ [instr])
    rest := Function.update cpu.rest cpu.running rest }

inductive Step (cpu : Cpu L) : Cpu L → Prop where
  | work {rest : List (Instr L)} (next : cpu.rest cpu.running = .work :: rest) : Step cpu (cpu.done .work rest)
  | acquire {lock : L} {rest : List (Instr L)} (next : cpu.rest cpu.running = .acquire lock :: rest)
      (free : cpu.words lock = false) :
      Step cpu { cpu.done (.acquire lock) rest with words := Function.update cpu.words lock true, interrupts := false }
  | spin {lock : L} {rest : List (Instr L)} (next : cpu.rest cpu.running = .acquire lock :: rest)
      (taken : cpu.words lock = true) : Step cpu { cpu with interrupts := false }
  | release {lock : L} {rest : List (Instr L)} (next : cpu.rest cpu.running = .release lock :: rest) :
      Step cpu { cpu.done (.release lock) rest with words := Function.update cpu.words lock false, interrupts := true }
  /-- The timer comes through only with interrupts on, and the task it resumes had them on when it was stopped. -/
  | timer (on : cpu.interrupts = true) (task : Nat) : Step cpu { cpu with running := task }

/-- The running task spins, interrupts off, for a lock of a task that is not running. -/
structure Stuck (cpu : Cpu L) : Prop where
  waits : ∃ lock rest task, cpu.rest cpu.running = .acquire lock :: rest ∧ cpu.words lock = true ∧
    task ≠ cpu.running ∧ lock ∈ sections (cpu.past task)
  masked : cpu.interrupts = false

/-- Runs whose steps all meet a condition. -/
inductive Reached (meets : Cpu L → Cpu L → Prop) (rest : Nat → List (Instr L)) : Cpu L → Prop where
  | start : Reached meets rest (.start rest)
  | step {cpu after : Cpu L} (before : Reached meets rest cpu) (fine : meets cpu after) (ran : Step cpu after) :
      Reached meets rest after

/-- The processor turns to another task only where the running one is not exposed. -/
def Sheltered (cpu after : Cpu L) : Prop := after.running ≠ cpu.running → ¬ Exposed (cpu.past cpu.running)

section Past

variable (past : List (Instr L)) (lock : L)

@[simp] theorem sections_acquire : sections (past ++ [.acquire lock]) = lock :: sections past := by
  simp [sections]

@[simp] theorem sections_release : sections (past ++ [.release lock]) = (sections past).erase lock := by
  simp [sections]

@[simp] theorem sections_work : sections (past ++ [.work]) = sections past := by
  simp [sections]

omit [DecidableEq L] in
@[simp] theorem released_work : released (past ++ [.work]) = released past := by
  simp [released]

omit [DecidableEq L] in
@[simp] theorem released_release : released (past ++ [.release lock]) = true := by
  simp [released]

end Past

/-- Only the running task holds locks, and where it can be interrupted it holds
none or is exposed. -/
structure Orderly (cpu : Cpu L) : Prop where
  nodup : (sections (cpu.past cpu.running)).Nodup
  words : ∀ lock ∈ sections (cpu.past cpu.running), cpu.words lock = true
  alone : ∀ task, task ≠ cpu.running → sections (cpu.past task) = []
  masked : cpu.interrupts = true → sections (cpu.past cpu.running) = [] ∨ released (cpu.past cpu.running) = true

namespace Orderly

variable {cpu after : Cpu L}

theorem start (rest : Nat → List (Instr L)) : Orderly (.start rest) :=
  ⟨List.nodup_nil, nofun, fun _ _ => rfl, fun _ => .inl rfl⟩

omit [DecidableEq L] in
private theorem past_running (instr : Instr L) (rest : List (Instr L)) :
    (cpu.done instr rest).past cpu.running = cpu.past cpu.running ++ [instr] := Function.update_self ..

private theorem alone_done (orderly : Orderly cpu) (instr : Instr L) (rest : List (Instr L)) (task : Nat)
    (other : task ≠ cpu.running) : sections ((cpu.done instr rest).past task) = [] := by
  show sections (Function.update cpu.past cpu.running _ task) = []
  rw [Function.update_of_ne other]
  exact orderly.alone task other

theorem step (orderly : Orderly cpu) (sheltered : Sheltered cpu after) (ran : Step cpu after) : Orderly after := by
  cases ran with
  | work next =>
    constructor
    · show (sections ((cpu.done _ _).past cpu.running)).Nodup
      rw [past_running, sections_work]
      exact orderly.nodup
    · intro lock member
      change lock ∈ sections ((cpu.done _ _).past cpu.running) at member
      rw [past_running, sections_work] at member
      exact orderly.words lock member
    · exact orderly.alone_done _ _
    · intro on
      show sections ((cpu.done _ _).past cpu.running) = [] ∨ released ((cpu.done _ _).past cpu.running) = true
      rw [past_running, sections_work, released_work]
      exact orderly.masked on
  | acquire next free =>
    rename_i lock rest
    have fresh : lock ∉ sections (cpu.past cpu.running) := by
      intro held
      rw [orderly.words lock held] at free
      cases free
    constructor
    · show (sections ((cpu.done (.acquire lock) rest).past cpu.running)).Nodup
      rw [past_running, sections_acquire]
      exact List.nodup_cons.mpr ⟨fresh, orderly.nodup⟩
    · intro other member
      change other ∈ sections ((cpu.done (.acquire lock) rest).past cpu.running) at member
      rw [past_running, sections_acquire] at member
      show Function.update cpu.words lock true other = true
      by_cases same : other = lock
      · rw [same, Function.update_self]
      · rw [Function.update_of_ne same]
        exact orderly.words other (List.mem_of_ne_of_mem same member)
    · exact orderly.alone_done (.acquire lock) rest
    · exact nofun
  | spin next taken => exact ⟨orderly.nodup, orderly.words, orderly.alone, nofun⟩
  | release next =>
    rename_i lock rest
    constructor
    · show (sections ((cpu.done (.release lock) rest).past cpu.running)).Nodup
      rw [past_running, sections_release]
      exact orderly.nodup.erase lock
    · intro other member
      change other ∈ sections ((cpu.done (.release lock) rest).past cpu.running) at member
      rw [past_running, sections_release, orderly.nodup.mem_erase_iff] at member
      show Function.update cpu.words lock false other = true
      rw [Function.update_of_ne member.1]
      exact orderly.words other member.2
    · exact orderly.alone_done (.release lock) rest
    · intro _
      show _ ∨ released ((cpu.done (.release lock) rest).past cpu.running) = true
      rw [past_running, released_release]
      exact .inr rfl
  | timer on task =>
    by_cases same : task = cpu.running
    · subst same
      exact orderly
    · -- With interrupts on, a task that is not exposed holds nothing.
      have none : sections (cpu.past cpu.running) = [] := by
        cases orderly.masked on with
        | inl empty => exact empty
        | inr last =>
          by_contra some
          exact sheltered same ⟨some, last⟩
      have all (other : Nat) : sections (cpu.past other) = [] := by
        by_cases here : other = cpu.running
        · rw [here, none]
        · exact orderly.alone other here
      constructor
      · show (sections (cpu.past task)).Nodup
        rw [all]
        exact List.nodup_nil
      · intro lock member
        change lock ∈ sections (cpu.past task) at member
        rw [all] at member
        cases member
      · exact fun other _ => all other
      · exact fun _ => .inl (all task)

theorem not_stuck (orderly : Orderly cpu) : ¬ Stuck cpu := by
  rintro ⟨⟨lock, rest, task, -, -, other, held⟩, -⟩
  rw [orderly.alone task other] at held
  cases held

end Orderly

theorem Reached.orderly {rest : Nat → List (Instr L)} {cpu : Cpu L} (reached : Reached Sheltered rest cpu) :
    Orderly cpu := by
  induction reached with
  | start => exact .start rest
  | step before fine ran ih => exact ih.step fine ran

section Flags

variable {L : Type u}

/-- The interrupt flag after some instructions. -/
def flagAfter (flag : Bool) (trace : List (Instr L)) : Bool :=
  trace.foldl (fun flag instr =>
    match instr with
    | .acquire _ => false
    | .release _ => true
    | .work => flag) flag

theorem flagAfter_append (flag : Bool) (one two : List (Instr L)) :
    flagAfter flag (one ++ two) = flagAfter (flagAfter flag one) two := List.foldl_append ..

theorem flagAfter_plain (flag : Bool) {trace : List (Instr L)} (traces : Traces .plain trace) :
    flagAfter flag trace = flag := by
  cases traces with
  | plain count =>
    induction count with
    | zero => rfl
    | succ count ih => exact ih

/-- The flag is clear all the way. -/
def StaysClear (flag : Bool) (trace : List (Instr L)) : Prop :=
  ∀ count, flagAfter flag (trace.take count) = false

theorem StaysClear.plain {trace : List (Instr L)} (traces : Traces .plain trace) : StaysClear false trace := by
  intro count
  cases traces with
  | plain total =>
    rw [List.take_replicate]
    exact flagAfter_plain false (.plain _)

/-- No trace with a release in it keeps the flag clear. -/
theorem StaysClear.no_release {flag : Bool} {trace : List (Instr L)} {lock : L} (clear : StaysClear flag trace) :
    .release lock ∉ trace := by
  intro member
  obtain ⟨one, two, rfl⟩ := List.append_of_mem member
  have after := clear (one.length + 1)
  rw [List.take_append, List.take_of_length_le (Nat.le_add_right _ _), Nat.add_sub_cancel_left, List.take_succ_cons,
    List.take_zero, flagAfter_append] at after
  cases after

/-- Sequences in which every lock taken is given back in order; `held` are the
locks of the sections around. -/
inductive Bracketed : List L → List (Instr L) → Prop where
  | nil {held : List L} : Bracketed held []
  | work {held : List L} {rest : List (Instr L)} (after : Bracketed held rest) : Bracketed held (.work :: rest)
  | within {held : List L} {lock : L} {inner rest : List (Instr L)} (fresh : lock ∉ held)
      (inside : Bracketed (lock :: held) inner) (after : Bracketed held rest) :
      Bracketed held (.acquire lock :: (inner ++ .release lock :: rest))

theorem Bracketed.flag_kept {held : List L} {trace : List (Instr L)} (bracketed : Bracketed held trace) :
    flagAfter true trace = true := by
  induction bracketed with
  | nil => rfl
  | work after ih => exact ih
  | within fresh inside after ihInner ihRest =>
    rename_i held lock inner rest
    show flagAfter false (inner ++ .release lock :: rest) = true
    rw [flagAfter_append]
    exact ihRest

/-- Such a sequence sets the flag, or it takes no lock. -/
theorem Bracketed.flag {held : List L} {trace : List (Instr L)} (bracketed : Bracketed held trace) (flag : Bool) :
    flagAfter flag trace = flag ↔ flag = true ∨ ∀ lock, .acquire lock ∉ trace := by
  cases flag with
  | true => simp [bracketed.flag_kept]
  | false =>
    induction bracketed with
    | nil => simp [flagAfter]
    | work after ih =>
      rename_i held rest
      have same : flagAfter false (.work :: rest) = flagAfter false rest := rfl
      rw [same, ih]
      simp
    | within fresh inside after ihInner ihRest =>
      rename_i held lock inner rest
      have set : flagAfter false (.acquire lock :: (inner ++ .release lock :: rest)) = true := by
        show flagAfter false (inner ++ .release lock :: rest) = true
        rw [flagAfter_append]
        exact after.flag_kept
      rw [set]
      simp only [Bool.true_eq_false, Bool.false_eq_true, false_or, false_iff, not_forall, not_not]
      exact ⟨lock, List.mem_cons_self ..⟩

end Flags

end LockSections
