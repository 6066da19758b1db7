import Navy.Locks

/-! The interrupt flag on the way through `interrupts_handler`. -/

namespace Navy

open LockSections

/-- `enum idt_attr`. -/
inductive Gate where
  | intgate
  | trapgate
deriving DecidableEq

/-- The gate `idt_init` puts at a vector. -/
def idtInit (vector : Nat) : Option Gate :=
  if vector < 3 then some .intgate
  else if vector = 3 ∨ vector = 4 then some .trapgate
  else if vector < 48 then some .intgate
  else none

/-- The flag a handler starts with: an interrupt gate clears it, a trap gate leaves it. -/
def entryFlag (vector : Nat) (before : Bool) : Bool :=
  match idtInit vector with
  | some .intgate => false
  | _ => before

/-- `interrupts_handler` at vector 32. With a fault on record it prints and
halts; a switch takes no lock but the scheduler's own. -/
def timerHandler (hasFault isScheduler : Bool) : Sect KernelLock :=
  if hasFault then .seq Sections.log .plain
  else .seq (if isScheduler then Sections.yieldTask else .plain) .plain

end Navy
