import Navy.Machine

/-! The string functions (`string.c`). A string is the list of the bytes of its
object from the pointer on, so that an access past the object is a fault; only
`memmove`, whose two regions may be parts of one object, works on a memory. -/

namespace Navy

/-- One byte of the object a string is kept in. -/
def byteAt (s : List (BitVec 8)) (i : Nat) : Checked (BitVec 8) :=
  match s[i]? with
  | some byte => .ok byte
  | none => .error .outOfBounds

/-- A text without a terminator in it. -/
structure Text where
  bytes : List (BitVec 8)
  clean : 0 ∉ bytes
deriving DecidableEq, Repr

def strlen : List (BitVec 8) → Checked Nat
  | [] => .error .outOfBounds
  | byte :: rest =>
    if byte = 0 then return 0
    else do
      let length ← strlen rest
      return length + 1

/-- The bytes in front of the first terminator. -/
def textOf : List (BitVec 8) → List (BitVec 8)
  | [] => []
  | byte :: rest => if byte = 0 then [] else byte :: textOf rest

/-- The loop of `strrchr` from `pos` down. The characters are signed ones promoted
to `int`, and the decrement behind the comparison with 0 wraps. -/
def strrchrFrom (s : List (BitVec 8)) (c : BitVec 32) : Nat → Checked Nat
  | 0 => do
    let byte ← byteAt s 0
    if byte.signExtend 32 ≠ c then return wrapSub 0 1 else return 0
  | pos + 1 => do
    let byte ← byteAt s (pos + 1)
    if byte.signExtend 32 ≠ c then strrchrFrom s c pos else return pos + 1

/-- The pointer as its distance from `s`, `none` for `NULL`. -/
def strrchr (s : List (BitVec 8)) (c : BitVec 32) : Checked (Option Nat) := do
  let length ← strlen s
  let pos ← strrchrFrom s c length
  return if pos = length then none else some pos

/-- The loop of `strncmp` from `i` on. A difference at any place is judged by the
second characters. -/
def strncmpFrom (s1 s2 : List (BitVec 8)) : Nat → Nat → Checked Int
  | 0, _ => return 0
  | remaining + 1, i => do
    let byte1 ← byteAt s1 i
    let byte2 ← byteAt s2 i
    if byte1 ≠ byte2 then
      let byte1 ← byteAt s1 1
      let byte2 ← byteAt s2 1
      return if byte1.toInt < byte2.toInt then -1 else 1
    else if byte1 = 0 then return 0
    else strncmpFrom s1 s2 remaining (i + 1)

def strncmp (s1 s2 : List (BitVec 8)) (n : Nat) : Checked Int := strncmpFrom s1 s2 n 0

/-- The difference of the lengths goes through an `int`. -/
def strcmp (s1 s2 : List (BitVec 8)) : Checked Int := do
  let length1 ← strlen s1
  let length2 ← strlen s2
  if length1 ≠ length2 then return (BitVec.ofNat 32 (wrapSub length1 length2)).toInt
  else strncmp s1 s2 length1

/-- `buffer[i] = source[i]`, upwards wherever the two regions lie. -/
def memmove (mem : Bytes) (dest src n : Nat) : Bytes := mem.copy dest src n

/-- What `strtok` works on: the object of the string, with pointers into it as
places, and the static `p`, which `none` stands for `NULL` in. -/
structure Tokenizer where
  object : List (BitVec 8)
  p : Option Nat
deriving DecidableEq, Repr

/-- A loop over `delim` that looks for one character. -/
def isDelim (delim : List (BitVec 8)) (byte : BitVec 8) : Checked Bool := do
  let length ← strlen delim
  return (delim.take length).contains byte

/-- The second loop of `strtok`. Each turn looks at the next byte of the object. -/
def tokenEnd (delim : List (BitVec 8)) (state : Tokenizer) (ret : Nat) : Nat → Nat → Checked (Option Nat × Tokenizer)
  | 0, _ => .error .noReturn
  | fuel + 1, str => do
    let byte ← byteAt state.object str
    if byte = 0 then return (some ret, { state with p := some str })
    else
      let found ← isDelim delim byte
      if found then return (some ret, ⟨state.object.set str 0, some (str + 1)⟩)
      else tokenEnd delim state ret fuel (str + 1)

def strtok (state : Tokenizer) (str : Option Nat) (delim : List (BitVec 8)) : Checked (Option Nat × Tokenizer) :=
  match str <|> state.p with
  | none => return (none, state)
  | some str => do
    let state := { state with p := some str }
    let first ← byteAt state.object str
    -- one delimiter is skipped, and the loop around the loop left
    let found ← isDelim delim first
    let str := if found then str + 1 else str
    let byte ← byteAt state.object str
    if byte = 0 then return (none, state)
    else tokenEnd delim state str (state.object.length + 1) str

end Navy
