import Navy.Numbers

/-! The symbol table the panic screen looks addresses up in (`symbols.c`). The
registered range is the list of its bytes; the tokens of a line are places in the
line. -/

namespace Navy

/-- The variables of `find_symbols` between two turns: the line so far, the static
pointer of `strtok`, and the buffer of the caller. -/
structure SymbolScan where
  line : List (BitVec 8)
  offset : Nat
  p : Option Nat
  buffer : List (BitVec 8)
deriving DecidableEq, Repr

def symbolLineSize : Nat := 128

/-- What a token points to; `NULL` points to nothing. -/
def pointed (object : List (BitVec 8)) : Option Nat → Checked (List (BitVec 8))
  | none => .error .outOfBounds
  | some place => .ok (object.drop place)

/-- The test for an entry, through two `int`s. -/
def symbolMatches (addr length ptr : BitVec 64) : Bool :=
  (addr.setWidth 32).signExtend 64 ≤ ptr && ptr ≤ (addr.setWidth 32 + length.setWidth 32).signExtend 64

/-- `memcpy` of a name without its terminator; it copies nothing from `NULL`. -/
def copyName (buffer object : List (BitVec 8)) : Option Nat → Checked (List (BitVec 8))
  | none => .ok buffer
  | some function => copyString buffer (object.drop function) 0

/-- A complete line. -/
def symbolLine (ptr : BitVec 64) (scan : SymbolScan) : Checked SymbolScan := do
  let line ← setByte scan.line (scan.offset - 1) 0
  let addr ← strtok ⟨line, scan.p⟩ (some 0) [32, 0]
  let length ← strtok addr.2 none [32, 0]
  let field ← pointed length.2.object length.1
  let first ← byteAt field 0
  -- an entry without a length has its type there
  let type ← (if first = 84 ∨ first = 116 then .ok length else strtok length.2 none [32, 0])
  let function ← strtok type.2 none [32, 0]
  let addrText ← pointed function.2.object addr.1
  let lengthText ← (if first = 84 ∨ first = 116 then .ok [48, 0] else pointed function.2.object length.1)
  let address ← hex2int addrText
  let size ← hex2int lengthText
  let buffer ← (if symbolMatches address size ptr then copyName scan.buffer function.2.object function.1
    else .ok scan.buffer)
  return ⟨List.replicate scan.offset 0 ++ function.2.object.drop scan.offset, 0, function.2.p, buffer⟩

def storeChar (byte : BitVec 8) (scan : SymbolScan) : Checked SymbolScan := do
  let line ← setByte scan.line scan.offset byte
  return { scan with line, offset := scan.offset + 1 }

/-- One turn of the loop. The byte it comes to after a newline is not stored. -/
def findSymbolsStep (ptr : BitVec 64) (scan : SymbolScan) (byte : BitVec 8) : Checked SymbolScan :=
  if scan.offset = 0 then storeChar byte scan
  else do
    let last ← byteAt scan.line (scan.offset - 1)
    if last ≠ 10 then storeChar byte scan else symbolLine ptr scan

def findSymbols (symbols : List (BitVec 8)) (p : Option Nat) (ptr : BitVec 64) (buffer : List (BitVec 8)) :
    Checked SymbolScan :=
  symbols.foldlM (findSymbolsStep ptr) ⟨List.replicate symbolLineSize 0, 0, p, buffer⟩

end Navy
