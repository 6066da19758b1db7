import Navy.Numbers
import Navy.Library.Traced

/-! Formatted printing (`fmt.c`). A call leaves a trace of what it reads of the
format and of the strings its callback is given. -/

namespace Navy

inductive FmtValue where
  | char (chr : BitVec 8)
  | string (str : Text)
  | decimal (val : BitVec 64)
deriving DecidableEq, Repr

inductive FmtEvent where
  /-- A character of the format. -/
  | read (index : Nat)
  | callback (s : List (BitVec 8))
deriving DecidableEq, Repr

abbrev Printing := Traced FmtEvent Fault

structure FmtScanner where
  format : List (BitVec 8)
  size : Nat
  offset : Nat

def FmtScanner.read (scanner : FmtScanner) (index : Nat) : Printing (BitVec 8) := do
  Traced.emit (.read index)
  Traced.silent (byteAt scanner.format index)

/-- Advances and reads without a check; no caller uses the character. -/
def fmtScannerNext (scanner : FmtScanner) : Printing FmtScanner := do
  let _ ← scanner.read (scanner.offset + 1)
  return { scanner with offset := scanner.offset + 1 }

def fmtScannerCurrent (scanner : FmtScanner) : Printing (BitVec 8) :=
  if scanner.offset < scanner.size then scanner.read scanner.offset else return 0

/-- The loop over a placeholder, from its brace to the closing one or to the end. -/
def skipPlaceholder : Nat → FmtScanner → BitVec 8 → Printing (FmtScanner × BitVec 8)
  | 0, _, _ => Traced.silent (.error .noReturn)
  | fuel + 1, scanner, mode => do
    let byte ← fmtScannerCurrent scanner
    if byte = 125 then return (scanner, mode)
    else
      let byte ← fmtScannerCurrent scanner
      if byte = 0 then return (scanner, mode)
      else
        let scanner ← fmtScannerNext scanner
        let byte ← fmtScannerCurrent scanner
        if byte = 125 then skipPlaceholder fuel scanner mode
        else
          let mode ← fmtScannerCurrent scanner
          skipPlaceholder fuel scanner mode

/-- The local variables of a decimal argument once its mode has been looked at. -/
structure DecimalStyle where
  base : Nat
  pad : Nat
  nbr : BitVec 64
  unit : List (BitVec 8)

def decimalStyle (mode : BitVec 8) (nbr : BitVec 64) : DecimalStyle :=
  if mode = 97 then ⟨16, 16, nbr, [0, 66, 0]⟩
  else if mode = 120 then ⟨16, 0, nbr, [0, 66, 0]⟩
  else if mode = 77 then
    if nbr.toInt.tdiv 1073741824 ≥ 1 then ⟨10, 0, BitVec.ofInt 64 (nbr.toInt.tdiv 1073741824), [71, 66, 0]⟩
    else if nbr.toInt.tdiv 1048576 ≥ 1 then ⟨10, 0, BitVec.ofInt 64 (nbr.toInt.tdiv 1048576), [77, 66, 0]⟩
    else if nbr.toInt.tdiv 1024 ≥ 1 then ⟨10, 0, BitVec.ofInt 64 (nbr.toInt.tdiv 1024), [75, 66, 0]⟩
    else ⟨10, 0, nbr, [66, 0, 0]⟩
  else ⟨10, 0, nbr, [0, 66, 0]⟩

def callback (s : List (BitVec 8)) : Printing Unit := Traced.emit (.callback (textOf s))

def callbackIf (condition : Prop) [Decidable condition] (s : List (BitVec 8)) : Printing Unit :=
  if condition then callback s else return ()

def printDecimal (stack : Nat → BitVec 8) (style : DecimalStyle) : Printing Unit := do
  let buffer ← Traced.silent (itoa stack style.nbr (List.replicate 256 0) style.base)
  let length ← Traced.silent (strlen buffer)
  callbackIf (length < style.pad) (List.replicate (style.pad - length) 48 ++ List.replicate
    (32 - (style.pad - length)) 0)
  callback buffer
  callbackIf ((style.unit.headD 0).toInt > 0) style.unit

def printValue (stack : Nat → BitVec 8) (mode : BitVec 8) : FmtValue → Printing Unit
  | .decimal val => printDecimal stack (decimalStyle mode val)
  | .string str => callback (str.bytes ++ [0])
  | .char chr => callback [chr, 0]

/-- A placeholder takes the next argument, if there is one. -/
def printArgument (stack : Nat → BitVec 8) (args : List FmtValue) (mode : BitVec 8) (currentValue : Nat) :
    Printing Nat :=
  match args[currentValue]? with
  | none => return currentValue
  | some value => do
    printValue stack mode value
    return currentValue + 1

/-- What the loop does for the character it stands at, with the argument it is at. -/
def printTurn (stack : Nat → BitVec 8) (args : List FmtValue) (scanner : FmtScanner) (currentValue : Nat) :
    Printing (FmtScanner × Nat) := do
  let byte ← fmtScannerCurrent scanner
  if byte = 123 then
    let found ← skipPlaceholder (scanner.size + 1) scanner 0
    let currentValue ← printArgument stack args found.2 currentValue
    let scanner ← fmtScannerNext found.1
    return (scanner, currentValue)
  else
    let byte ← fmtScannerCurrent scanner
    callback [byte, 0]
    let scanner ← fmtScannerNext scanner
    return (scanner, currentValue)

def printLoop (stack : Nat → BitVec 8) (args : List FmtValue) : Nat → FmtScanner → Nat → Printing Unit
  | 0, _, _ => Traced.silent (.error .noReturn)
  | fuel + 1, scanner, currentValue => do
    let byte ← fmtScannerCurrent scanner
    if byte = 0 then return ()
    else
      let turn ← printTurn stack args scanner currentValue
      printLoop stack args fuel turn.1 turn.2

/-- `stack` is what the local arrays of `itoa` hold before they are written. -/
def printFormat (stack : Nat → BitVec 8) (format : List (BitVec 8)) (args : List FmtValue) : Printing Unit := do
  let size ← Traced.silent (strlen format)
  printLoop stack args (size + 1) ⟨format, size, 0⟩ 0

end Navy
