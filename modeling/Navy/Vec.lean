import Navy.Machine

/-! The growable arrays of `vec.h` and `vec.c`. `data` is the content of the
block behind the pointer: slots nothing was stored in hold `none`. The member
`iter` serves `vec_foreach` only, which no modelled function uses. -/

namespace Navy

structure Vec (T : Type) where
  pointer : Nat
  data : Nat → Option T
  length : Nat
  capacity : Nat

variable {T : Type}

def vecInit : Vec T := ⟨0, fun _ => none, 0, 0⟩

/-- The capacity `vec_expand_` leaves behind. -/
def Vec.grown (vec : Vec T) : Nat :=
  if vec.length + 1 > vec.capacity then (if vec.capacity = 0 then 1 else vec.capacity <<< 1) else vec.capacity

/-- `answer` is what `realloc` gave for the larger block, `none` for `NULL`. No
block of 2^63 bytes can be had, so the doubling does not wrap. -/
def vecExpand (vec : Vec T) (answer : Option Nat) : Checked (Vec T) :=
  if vec.length + 1 > vec.capacity then
    match answer with
    | none => .error .assertion
    | some pointer => .ok { vec with
        pointer
        data := fun index => if index < vec.capacity then vec.data index else none
        capacity := vec.grown }
  else .ok vec

/-- `data[length++] = val`, the second half of `vec_push`. -/
def vecStore (vec : Vec T) (val : T) : Checked (Vec T) := do
  check (vec.length < vec.capacity) .outOfBounds
  return { vec with data := Function.update vec.data vec.length (some val), length := vec.length + 1 }

def vecPush (vec : Vec T) (val : T) (answer : Option Nat) : Checked (Vec T) := do
  let vec ← vecExpand vec answer
  vecStore vec val

def Vec.get (vec : Vec T) (index : Nat) : Checked T :=
  match vec.data index with
  | some val => .ok val
  | none => .error .outOfBounds

/-- Popping an empty array reads far outside its block. -/
def vecPop (vec : Vec T) : Checked (T × Vec T) := do
  check (0 < vec.length) .outOfBounds
  let val ← vec.get (vec.length - 1)
  return (val, { vec with length := vec.length - 1 })

/-- Replacing what a stored pointer points to. -/
def Vec.modify (vec : Vec T) (index : Nat) (val : T) : Vec T :=
  { vec with data := Function.update vec.data index (some val) }

end Navy
