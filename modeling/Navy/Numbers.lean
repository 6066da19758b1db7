import Navy.Strings

/-! Numbers as text: `itoa` (`itoa.c`), `atoi` (`stdlib.c`) with the `pow` it uses
(`math.c`), and `hex2int` (`symbols.c`). A `char` is signed. -/

namespace Navy

/-- One byte of an object, written. -/
def setByte (s : List (BitVec 8)) (i : Nat) (byte : BitVec 8) : Checked (List (BitVec 8)) :=
  if i < s.length then .ok (s.set i byte) else .error .outOfBounds

/-- The loop of `strrev`. The two places come nearer to each other with every turn. -/
def strrevFrom : Nat → List (BitVec 8) → Nat → Nat → Checked (List (BitVec 8))
  | 0, _, _, _ => .error .noReturn
  | fuel + 1, s, start, last =>
    if start < last then do
      let tmp ← byteAt s start
      let other ← byteAt s last
      let s ← setByte s start other
      let s ← setByte s last tmp
      strrevFrom fuel s (start + 1) (last - 1)
    else return s

def strrev (s : List (BitVec 8)) : Checked (List (BitVec 8)) := do
  let length ← strlen s
  strrevFrom (s.length + 1) s 0 (wrapSub length 1)

/-- The character for `value % base`, which goes through an `int8_t`. -/
def itoaDigit (base : Nat) (value : Int) : BitVec 8 :=
  let digit := (BitVec.ofInt 8 (value.tmod base)).toInt
  if digit < 0xa then BitVec.ofInt 8 (digit + 48) else BitVec.ofInt 8 (digit - 0xa + 97)

/-- The loop over the digits. Each turn writes a byte of the buffer, or faults. -/
def itoaLoop (base : Nat) : Nat → List (BitVec 8) → Nat → Int → Checked (List (BitVec 8) × Nat)
  | 0, _, _, _ => .error .noReturn
  | fuel + 1, str, index, value => do
    let str ← setByte str index (itoaDigit base value)
    let value := value.tdiv base
    if value ≠ 0 then itoaLoop base fuel str (index + 1) value
    else return (str, index + 1)

/-- `itoa` of a value that is not cut in two. The sign of a negative one is written
first, and the value stays negative. -/
def itoaWhole (value : Int) (str : List (BitVec 8)) (base : Nat) : Checked (List (BitVec 8)) := do
  -- a division by zero halts the processor like a failed assertion
  check (base ≠ 0) .assertion
  let str ← (if value < 0 then setByte str 0 45 else .ok str)
  let written ← itoaLoop base (str.length + 1) str (if value < 0 then 1 else 0) value
  let str ← setByte written.1 written.2 0
  strrev str

/-- `str[i + offset] = other[i]` below the length of the other string. -/
def copyString (str other : List (BitVec 8)) (offset : Nat) : Checked (List (BitVec 8)) := do
  let length ← strlen other
  (List.range length).foldlM (fun str i => do
    let byte ← byteAt other i
    setByte str (i + offset) byte) str

/-- The halves of a negative value are not negative themselves. `stack` is what the
two local arrays hold before they are written. -/
def itoa (stack : Nat → BitVec 8) (value : BitVec 64) (str : List (BitVec 8)) (base : Nat) :
    Checked (List (BitVec 8)) :=
  if value.toInt < 0 ∧ base ≠ 10 then do
    let right := value &&& 0xffffffff
    let left := (value &&& 0xffffffff00000000) >>> 32
    let leftStr ← itoaWhole left.toInt ((List.range 32).map stack) base
    let rightStr ← itoaWhole right.toInt ((List.range 32).map fun i => stack (32 + i)) base
    let str ← copyString str leftStr 0
    let offset ← strlen leftStr
    copyString str rightStr offset
  else itoaWhole value.toInt str base

def hexByte (byte : BitVec 8) : BitVec 8 :=
  if 48 ≤ byte.toInt ∧ byte.toInt ≤ 57 then byte - 48
  else if 97 ≤ byte.toInt ∧ byte.toInt ≤ 102 then byte - 97 + 10
  else byte

def hexStep (val : BitVec 64) (byte : BitVec 8) : BitVec 64 := (val <<< 4) ||| (hexByte byte &&& 0xf).setWidth 64

def hex2intFrom : BitVec 64 → List (BitVec 8) → Checked (BitVec 64)
  | _, [] => .error .outOfBounds
  | val, byte :: rest => if byte = 0 then return val else hex2intFrom (hexStep val byte) rest

def hex2int (s : List (BitVec 8)) : Checked (BitVec 64) := hex2intFrom 0 s

def pow (base : BitVec 64) (power : Nat) : BitVec 64 := (List.range power).foldl (fun value _ => value * base) 1

/-- What one character adds: the digit and the power are multiplied as `uint32_t`. -/
def atoiTerm (byte : BitVec 8) (power : Nat) : BitVec 64 :=
  (BitVec.ofInt 32 (byte.toInt - 48) * (pow 10 (power % 2 ^ 16)).setWidth 32).setWidth 64

/-- The loop of `atoi`, over the bytes of the object from `index` on. -/
def atoiLoop (nptr : List (BitVec 8)) : Nat → Nat → BitVec 64 → Checked (BitVec 64)
  | 0, _, _ => .error .noReturn
  | fuel + 1, index, value => do
    let byte ← byteAt nptr index
    if byte = 0 then return value
    else
      let length ← strlen nptr
      atoiLoop nptr fuel (index + 1) (value + atoiTerm byte (wrapSub (wrapSub length index) 1))

def atoi (nptr : List (BitVec 8)) : Checked Int := do
  let first ← byteAt nptr 0
  let value ← atoiLoop nptr (nptr.length + 1) (if first = 45 then 1 else 0) 0
  return ((if first = 45 then value * -1 else value).setWidth 32).toInt

end Navy
