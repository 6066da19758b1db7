import Navy.Vec
import Navy.Library.CallRuns

/-! The growable arrays of `vec.h` and `vec.c` in memory: `realloc` is asked for
bytes, the elements lie in the block it gave, and `size_t` arithmetic wraps. What
`realloc` does is a parameter. The trace of a call shows its answers, the growth
and the stores. -/

namespace Navy.VecMemory

/-- The blocks behind the pointers `realloc` gave: the elements in a block, and its
bytes. `none` was never stored. What the allocator keeps for itself are its books. -/
structure Heap (Books T : Type) where
  slots : Nat → Nat → Option T
  size : Nat → Nat
  books : Books

structure State (Books T : Type) where
  data : Nat
  length : Nat
  capacity : Nat
  heap : Heap Books T

/-- A pointer, 0 for `NULL`, and the heap behind the call. -/
abbrev Realloc (Books T : Type) := Heap Books T → Nat → Nat → Nat × Heap Books T

/-- One use of a macro. -/
inductive VecCall (T : Type) where
  | init
  | push (val : T)
  | pop

inductive Event (Books T : Type) where
  /-- `realloc` was asked for bytes and gave a pointer. -/
  | realloc (request ptr : Nat)
  /-- `vec_expand_` put a larger block in the place of the one before. -/
  | grown (before after : State Books T)
  /-- `data[index] = val`, with the capacity at that moment. -/
  | stored (index capacity : Nat)
  /-- A macro was through. -/
  | called (call : VecCall T) (before after : State Books T)

variable {Books T : Type}

def State.slot (state : State Books T) (index : Nat) : Option T := state.heap.slots state.data index

/-- An element that lies in the block as a whole. -/
def State.inBlock (state : State Books T) (size index : Nat) : Prop := (index + 1) * size ≤ state.heap.size state.data

instance (state : State Books T) (size index : Nat) : Decidable (state.inBlock size index) :=
  inferInstanceAs (Decidable ((index + 1) * size ≤ state.heap.size state.data))

def Heap.write (heap : Heap Books T) (ptr index : Nat) (val : T) : Heap Books T :=
  { heap with slots := Function.update heap.slots ptr (Function.update (heap.slots ptr) index (some val)) }

abbrev Action (Books T : Type) := Traced (Event Books T) Fault

def vecInit (state : State Books T) : State Books T := { state with data := 0, length := 0, capacity := 0 }

/-- `memsz` is an `int`, which the product takes to a `size_t`. -/
def vecExpand (realloc : Realloc Books T) (state : State Books T) (memsz : BitVec 32) :
    Action Books T (State Books T) :=
  if wrap (state.length + 1) > state.capacity then do
    let n := if state.capacity = 0 then 1 else wrap (state.capacity <<< 1)
    let request := wrap (n * (memsz.signExtend 64).toNat)
    let (ptr, heap) := realloc state.heap state.data request
    Traced.emit (.realloc request ptr)
    Traced.silent (check (ptr ≠ 0) .assertion)
    let after := { state with data := ptr, capacity := n, heap }
    Traced.emit (.grown state after)
    return after
  else return state

/-- `data[length++] = val`, the second statement of `vec_push`. -/
def vecStore (size : Nat) (state : State Books T) (val : T) : Action Books T (State Books T) := do
  Traced.emit (.stored state.length state.capacity)
  Traced.silent (check (state.inBlock size state.length) .outOfBounds)
  return { state with length := wrap (state.length + 1), heap := state.heap.write state.data state.length val }

/-- `size` is the `sizeof` of an element. -/
def vecPush (realloc : Realloc Books T) (size : Nat) (state : State Books T) (val : T) :
    Action Books T (State Books T) := do
  let state ← vecExpand realloc state (BitVec.ofNat 32 size)
  vecStore size state val

def vecPop (size : Nat) (state : State Books T) : Checked (T × State Books T) := do
  let length := wrapSub state.length 1
  check (state.inBlock size length) .outOfBounds
  match state.slot length with
  | some val => return (val, { state with length })
  | none => .error .outOfBounds

def vecUse (realloc : Realloc Books T) (size : Nat) (state : State Books T) :
    VecCall T → Action Books T (State Books T × Option T)
  | .init => return (vecInit state, none)
  | .push val => do
    let after ← vecPush realloc size state val
    return (after, none)
  | .pop => do
    let (val, after) ← Traced.silent (vecPop size state)
    return (after, some val)

def vecCall (realloc : Realloc Books T) (size : Nat) (state : State Books T) (call : VecCall T) :
    Action Books T (State Books T × Option T) := do
  let done ← vecUse realloc size state call
  Traced.emit (.called call state done.1)
  return done

/-- Macro after macro, with the values popped. -/
def vecRun (realloc : Realloc Books T) (size : Nat) (state : State Books T) (calls : List (VecCall T)) :
    Action Books T (State Books T × List T) := CallRuns.run (vecCall realloc size) state calls

end Navy.VecMemory
