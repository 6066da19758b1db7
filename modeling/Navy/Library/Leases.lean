import Mathlib.Logic.Function.Basic
import Navy.Library.Paths

/-! What a heap is for, without a heap: memory is lent out in leases, each with a
pointer of its own and cells that nobody else has. -/

namespace Leases
open Paths

variable {Cell : Type}

/-- The leases that run, each known by its pointer. -/
abbrev Pool (Cell : Type) := Nat → Option (List Cell)

def Pool.empty : Pool Cell := fun _ => none

inductive Call (Cell : Type) where
  | malloc (size : Nat)
  | calloc (size : Nat)
  | realloc (pointer size : Nat)
  | free (pointer : Nat)
  | write (pointer offset : Nat) (cell : Cell)

/-- A lease of a size can begin at a pointer without meeting another. -/
structure Fresh (alignment : Nat) (pool : Pool Cell) (pointer size : Nat) : Prop where
  named : pointer ≠ 0
  aligned : alignment ∣ pointer
  unused : pool pointer = none
  apart : ∀ other cells, pool other = some cells → pointer + size ≤ other ∨ other + cells.length ≤ pointer

/-- The pool once a lease has ended. The pointer 0 stands for none. -/
def Ends (pool : Pool Cell) (pointer : Nat) (after : Pool Cell) : Prop :=
  pointer = 0 ∧ after = pool ∨ pool pointer ≠ none ∧ after = Function.update pool pointer none

/-- What a call may come back with, and what it leaves. A new lease has any cells. -/
inductive Step (alignment : Nat) (blank : Cell) (pool : Pool Cell) : Call Cell → Nat → Pool Cell → Prop where
  | malloc {size pointer : Nat} {cells : List Cell} (fresh : Fresh alignment pool pointer size)
    (whole : cells.length = size) :
      Step alignment blank pool (.malloc size) pointer (Function.update pool pointer (some cells))
  | calloc {size pointer : Nat} (fresh : Fresh alignment pool pointer size) :
      Step alignment blank pool (.calloc size) pointer (Function.update pool pointer (some (List.replicate size blank)))
  | free {pointer : Nat} {after : Pool Cell} (ends : Ends pool pointer after) : Step alignment blank pool
    (.free pointer) 0 after
  | drop {pointer : Nat} {after : Pool Cell} (ends : Ends pool pointer after) : Step alignment blank pool
    (.realloc pointer 0) 0 after
  | start {size pointer : Nat} {cells : List Cell} (some : 0 < size) (fresh : Fresh alignment pool pointer size)
    (whole : cells.length = size) :
      Step alignment blank pool (.realloc 0 size) pointer (Function.update pool pointer (.some cells))
  | shrink {pointer size : Nat} {cells : List Cell} (lease : pool pointer = some cells) (some : 0 < size)
    (less : size ≤ cells.length) :
      Step alignment blank pool (.realloc pointer size) pointer (Function.update pool pointer (.some (cells.take size)))
  | move {pointer size target : Nat} {cells more : List Cell} (lease : pool pointer = some cells)
    (grows : cells.length < size)
      (fresh : Fresh alignment pool target size) (whole : cells.length + more.length = size) :
      Step alignment blank pool (.realloc pointer size) target
        (Function.update (Function.update pool pointer none) target (some (cells ++ more)))
  | write {pointer offset : Nat} {cell : Cell} {cells : List Cell} (lease : pool pointer = some cells)
    (inside : offset < cells.length) :
      Step alignment blank pool (.write pointer offset cell) 0
        (Function.update pool pointer (some (cells.set offset cell)))

/-- What a client may ask for: it gives back and writes to leases that run only. -/
def Permitted (pool : Pool Cell) : Call Cell → Prop
  | .malloc _ | .calloc _ => True
  | .realloc pointer _ | .free pointer => pointer = 0 ∨ pool pointer ≠ none
  | .write pointer offset _ => ∃ cells, pool pointer = some cells ∧ offset < cells.length

/-- Call after call, each with what it came back with. -/
def Run (alignment : Nat) (blank : Cell) : Pool Cell → List (Call Cell × Nat) → Pool Cell → Prop :=
  Path fun pool event after => Step alignment blank pool event.1 event.2 after

/-- A client that keeps to what it may ask for, whatever came before. -/
def Honest (alignment : Nat) (blank : Cell) (pool : Pool Cell) (events : List (Call Cell × Nat)) : Prop :=
  ∀ front call result back middle, events = front ++ (call, result) :: back →
    Run alignment blank pool front middle → Permitted middle call

/-- Leases have proper pointers and do not meet. -/
structure Proper (alignment : Nat) (pool : Pool Cell) : Prop where
  named : ∀ pointer cells, pool pointer = some cells → pointer ≠ 0 ∧ alignment ∣ pointer
  apart : ∀ pointer cells other cells', pool pointer = some cells → pool other = some cells' →
    pointer = other ∨ pointer + cells.length ≤ other ∨ other + cells'.length ≤ pointer

/-- The lease a call is about. -/
def Call.names (call : Call Cell) (pointer : Nat) : Prop :=
  match call with
  | .malloc _ | .calloc _ => False
  | .realloc other _ | .free other | .write other _ _ => other = pointer

variable {alignment : Nat} {blank : Cell} {pool after middle : Pool Cell} {call : Call Cell} {result pointer size : Nat}
  {cells : List Cell} {events : List (Call Cell × Nat)}

theorem proper_empty : Proper alignment (Pool.empty : Pool Cell) := ⟨nofun, nofun⟩

/-- A lease that ends takes nothing with it. -/
theorem Proper.without (proper : Proper alignment pool) (pointer : Nat) :
    Proper alignment (Function.update pool pointer none) := by
  have old {other : Nat} {cells : List Cell} (lease : Function.update pool pointer none other =
    some cells) : pool other = some cells := by
    by_cases same : other = pointer
    · subst same
      rw [Function.update_self] at lease
      cases lease
    · rwa [Function.update_of_ne same] at lease
  exact ⟨fun other cells lease => proper.named other cells (old lease),
    fun first cells last cells' one two => proper.apart first cells last cells' (old one) (old two)⟩

/-- A lease comes where there is room for it. -/
theorem Proper.with (proper : Proper alignment pool) (named : pointer ≠ 0 ∧ alignment ∣ pointer)
    (apart : ∀ other others, other ≠ pointer → pool other = some others → pointer + cells.length ≤ other ∨
      other + others.length ≤ pointer) :
    Proper alignment (Function.update pool pointer (some cells)) := by
  refine ⟨fun other others lease => ?_, fun first firsts last lasts one two => ?_⟩
  · by_cases same : other = pointer
    · exact same ▸ named
    · rw [Function.update_of_ne same] at lease
      exact proper.named other others lease
  · by_cases here : first = pointer
    · subst here
      rw [Function.update_self] at one
      obtain rfl := Option.some.inj one
      by_cases there : last = first
      · exact .inl there.symm
      · rw [Function.update_of_ne there] at two
        exact .inr (apart last lasts there two)
    · rw [Function.update_of_ne here] at one
      by_cases there : last = pointer
      · subst there
        rw [Function.update_self] at two
        obtain rfl := Option.some.inj two
        exact .inr (apart first firsts here one).symm
      · rw [Function.update_of_ne there] at two
        exact proper.apart first firsts last lasts one two

theorem Proper.fresh (proper : Proper alignment pool) (fresh : Fresh alignment pool pointer cells.length) :
    Proper alignment (Function.update pool pointer (some cells)) :=
  proper.with ⟨fresh.named, fresh.aligned⟩ fun other others _ lease => fresh.apart other others lease

/-- A lease keeps its place and becomes no longer. -/
theorem Proper.same {others : List Cell} (proper : Proper alignment pool) (lease : pool pointer = some cells)
    (less : others.length ≤ cells.length) :
    Proper alignment (Function.update pool pointer (some others)) := by
  apply proper.with (proper.named pointer cells lease)
  intro other cells' different lease'
  rcases proper.apart pointer cells other cells' lease lease' with same | front | back
  · exact absurd same.symm different
  · exact .inl (by omega)
  · exact .inr back

theorem Ends.proper (ends : Ends pool pointer after) (proper : Proper alignment pool) : Proper alignment after := by
  rcases ends with ⟨-, rfl⟩ | ⟨-, rfl⟩
  · exact proper
  · exact proper.without pointer

theorem Fresh.without (fresh : Fresh alignment pool pointer size) (other : Nat) :
    Fresh alignment (Function.update pool other none) pointer size := by
  refine ⟨fresh.named, fresh.aligned, ?_, fun place cells lease => ?_⟩
  · by_cases same : pointer = other
    · rw [same, Function.update_self]
    · rw [Function.update_of_ne same]
      exact fresh.unused
  · by_cases same : place = other
    · rw [same, Function.update_self] at lease
      cases lease
    · rw [Function.update_of_ne same] at lease
      exact fresh.apart place cells lease

theorem Step.proper (step : Step alignment blank pool call result after) (proper : Proper alignment pool) :
    Proper alignment after := by
  cases step with
  | malloc fresh whole => exact proper.fresh (whole ▸ fresh)
  | calloc fresh => exact proper.fresh (by rwa [List.length_replicate])
  | free ends => exact ends.proper proper
  | drop ends => exact ends.proper proper
  | start _ fresh whole => exact proper.fresh (whole ▸ fresh)
  | shrink lease _ less => exact proper.same lease (List.length_take_le' _ _)
  | move _ _ fresh whole =>
    apply (proper.without _).fresh
    rw [List.length_append, whole]
    exact fresh.without _
  | write lease inside => exact proper.same lease (by simp)

theorem Run.proper (run : Run alignment blank pool events after) (proper : Proper alignment pool) :
    Proper alignment after :=
  run.keeps (fun _ _ _ proper step => step.proper proper) proper

theorem Step.malloced (step : Step alignment blank pool (.malloc size) pointer after) :
    ∃ cells, after pointer = some cells ∧ cells.length = size := by
  cases step with
  | malloc fresh whole => exact ⟨_, Function.update_self _ _ _, whole⟩

theorem Step.written {offset : Nat} {cell : Cell}
    (step : Step alignment blank pool (.write pointer offset cell) result after) :
    after pointer ≠ none := by
  cases step with
  | write lease inside =>
    rw [Function.update_self]
    exact nofun

/-- A call leaves the leases alone that it is not about. -/
theorem Step.frame (step : Step alignment blank pool call result after) (lease : pool pointer = some cells)
    (other : ¬ call.names pointer) : after pointer = some cells := by
  have fresh_apart {place size : Nat} (fresh : Fresh alignment pool place size) : pointer ≠ place := by
    rintro rfl
    exact absurd (fresh.unused.symm.trans lease) nofun
  have ends_apart {place : Nat} (ends : Ends pool place after) (apart : ¬ place = pointer) : after pointer =
    some cells := by
    rcases ends with ⟨-, rfl⟩ | ⟨-, rfl⟩
    · exact lease
    · rw [Function.update_of_ne (Ne.symm apart)]
      exact lease
  cases step with
  | malloc fresh => exact (Function.update_of_ne (fresh_apart fresh) _ _).trans lease
  | calloc fresh => exact (Function.update_of_ne (fresh_apart fresh) _ _).trans lease
  | free ends => exact ends_apart ends other
  | drop ends => exact ends_apart ends other
  | start _ fresh => exact (Function.update_of_ne (fresh_apart fresh) _ _).trans lease
  | shrink => exact (Function.update_of_ne (Ne.symm other) _ _).trans lease
  | move _ _ fresh =>
    rw [Function.update_of_ne (fresh_apart fresh), Function.update_of_ne (Ne.symm other)]
    exact lease
  | write => exact (Function.update_of_ne (Ne.symm other) _ _).trans lease

/-- What nobody names stays as it is, from whichever call on. -/
theorem Run.frame (run : Run alignment blank pool events after) (lease : pool pointer = some cells)
    (others : ∀ event ∈ events, ¬ event.1.names pointer) : after pointer = some cells :=
  Path.keeps_labelled (· pointer = some cells) (fun event => ¬ event.1.names pointer)
    (fun _ _ _ lease other step => step.frame lease other)
    run others lease

theorem honest_nil : Honest alignment blank pool [] := by
  intro front call result back middle split
  simp at split

theorem Honest.cons {rest : List (Call Cell × Nat)} (permitted : Permitted pool call)
    (more : ∀ middle, Step alignment blank pool call result middle → Honest alignment blank middle rest) :
    Honest alignment blank pool ((call, result) :: rest) := by
  intro front call' result' back last split run
  cases front with
  | nil =>
    obtain ⟨same, -⟩ := List.cons.inj split
    obtain ⟨rfl, -⟩ := Prod.mk.inj same
    cases run
    exact permitted
  | cons event front =>
    obtain ⟨rfl, others⟩ := List.cons.inj split
    cases run with
    | cons first later => exact more _ first front call' result' back last others later

theorem Honest.first {rest : List (Call Cell × Nat)}
    (honest : Honest alignment blank pool ((call, result) :: rest)) : Permitted pool call :=
  honest [] call result rest pool rfl .nil

theorem Honest.rest {rest : List (Call Cell × Nat)} (honest : Honest alignment blank pool ((call, result) :: rest))
    (step : Step alignment blank pool call result middle) : Honest alignment blank middle rest :=
  fun front call' result' back last split run =>
    honest ((call, result) :: front) call' result' back last (by rw [split, List.cons_append]) (.cons step run)

theorem Honest.drop {more : List (Call Cell × Nat)} (honest : Honest alignment blank pool (events ++ more))
    (run : Run alignment blank pool events middle) : Honest alignment blank middle more := by
  induction run with
  | nil => exact honest
  | cons first _ ih => exact ih (honest.rest first)

theorem Honest.take {more : List (Call Cell × Nat)} (honest : Honest alignment blank pool (events ++ more)) :
    Honest alignment blank pool events :=
  fun front call result back middle split run => honest front call result (back ++ more) middle (by simp [split]) run

/-- Calls that are each met as they should be, if they may be asked for, make a proper run
with an honest client. -/
theorem serves_run {State : Type} {serves : State → Call Cell × Nat → State → Prop} {shows : State → Pool Cell → Prop}
    (meets : ∀ state pool event between, shows state pool → Permitted pool event.1 → serves state event between →
      ∃ middle, Step alignment blank pool event.1 event.2 middle ∧ shows between middle)
    {state last : State} (served : Path serves state events last) (holds : shows state pool)
    (honest : Honest alignment blank pool events) :
    ∃ after, Run alignment blank pool events after ∧ shows last after := by
  induction served generalizing pool with
  | nil => exact ⟨pool, .nil, holds⟩
  | cons first rest ih =>
    obtain ⟨middle, step, holds'⟩ := meets _ _ _ _ holds honest.first first
    obtain ⟨after, run, ends⟩ := ih holds' (honest.rest step)
    exact ⟨after, .cons step run, ends⟩

end Leases
