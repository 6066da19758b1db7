import Navy.Library.Bytes
import Navy.Library.Outcome
import Mathlib.Tactic.IntervalCases

/-! The machine the kernel runs on: 64-bit words, address ranges, page
rounding, and the two fixed offsets at which physical memory is mapped. Words
are naturals; every operation that can leave 64 bits wraps explicitly. -/

namespace Navy

/-- Why a kernel call does not come back to its caller. -/
inductive Fault where
  /-- `ASSERT` raised the debug exception, whose handler halts the processor. -/
  | assertion
  /-- The call recursed or looped without end. -/
  | noReturn
  /-- An access outside the object the pointer was made for. -/
  | outOfBounds
deriving DecidableEq, Repr

abbrev Checked := Except Fault

def check (condition : Prop) [Decidable condition] (fault : Fault) : Checked Unit :=
  if condition then .ok () else .error fault

def wrap (word : Nat) : Nat := word % 2 ^ 64

/-- Subtraction of `size_t` values. -/
def wrapSub (first second : Nat) : Nat := wrap (first + (2 ^ 64 - second % 2 ^ 64))

def pageSize : Nat := 4096

structure Range where
  base : Nat
  length : Nat
deriving DecidableEq, Repr

/-- The page numbers a page-aligned range covers. -/
def Range.pages (range : Range) : List Nat :=
  (List.range (range.length / pageSize)).map (range.base / pageSize + ·)

def alignDown (address align : Nat) : Nat :=
  (BitVec.ofNat 64 address &&& ~~~(BitVec.ofNat 64 align - 1)).toNat

def alignUp (address align : Nat) : Nat := alignDown (wrap (address + align - 1)) align

def mmapIoBase : Nat := 0xffff800000000000
def mmapKernelBase : Nat := 0xffffffff80000000

@[irreducible] def mmapPhysToIo (physical : Nat) : Nat := wrap (physical + mmapIoBase)
def mmapIoToPhys (virtual : Nat) : Nat := wrapSub virtual mmapIoBase
@[irreducible] def mmapPhysToKernel (physical : Nat) : Nat := wrap (physical + mmapKernelBase)

theorem check_ok {condition : Prop} [Decidable condition] {fault : Fault} {result : Unit}
    (ran : check condition fault = .ok result) : condition := by
  unfold check at ran
  exact (Outcome.ite_ok ran).1

@[simp] theorem check_true {condition : Prop} [Decidable condition] (fault : Fault) (holds : condition) :
    check condition fault = .ok () := if_pos holds

theorem wrap_of_lt {word : Nat} (small : word < 2 ^ 64) : wrap word = word := Nat.mod_eq_of_lt small

private theorem mask_page (word : BitVec 64) : (word &&& ~~~4095#64).toNat = word.toNat / 4096 * 4096 := by
  apply Nat.eq_of_testBit_eq
  intro place
  rw [BitVec.toNat_and, Nat.testBit_and, show (4096 : Nat) = 2 ^ 12 by rfl, Nat.testBit_mul_two_pow,
    ← Nat.shiftRight_eq_div_pow, Nat.testBit_shiftRight]
  by_cases low : 12 ≤ place
  · by_cases inside : place < 64
    · have ones : Nat.testBit (~~~4095#64).toNat place = true := by
        interval_cases place <;> rfl
      rw [ones, show 12 + (place - 12) = place by omega]
      simp [low]
    · have high : word.toNat.testBit place = false :=
        Nat.testBit_lt_two_pow (Nat.lt_of_lt_of_le word.isLt (Nat.pow_le_pow_right (by decide) (by omega)))
      rw [high, show 12 + (place - 12) = place by omega, high]
      simp
  · have zeros : Nat.testBit (~~~4095#64).toNat place = false := by
      interval_cases place <;> rfl
    rw [zeros, Bool.and_false]
    simp [low]

theorem alignDown_page (address : Nat) : alignDown address pageSize = wrap address / 4096 * 4096 := by
  have mask : BitVec.ofNat 64 pageSize - 1 = 4095#64 := by decide
  rw [alignDown, mask, mask_page, BitVec.toNat_ofNat, wrap]

theorem alignUp_page (address : Nat) (small : address + 4095 < 2 ^ 64) :
    alignUp address pageSize = (address + 4095) / 4096 * 4096 := by
  have inner : wrap (wrap (address + pageSize - 1)) = address + 4095 := by
    simp only [wrap, pageSize]; omega
  rw [alignUp, alignDown_page, inner]

theorem phys_io (physical : Nat) (small : physical < 2 ^ 64) : mmapIoToPhys (mmapPhysToIo physical) = physical := by
  unfold mmapIoToPhys mmapPhysToIo
  simp only [wrapSub, wrap, mmapIoBase]
  omega

theorem Range.mem_pages {range : Range} {page : Nat} :
    page ∈ range.pages ↔ range.base / 4096 ≤ page ∧ page < range.base / 4096 + range.length / 4096 := by
  simp only [Range.pages, pageSize, List.mem_map, List.mem_range]
  constructor
  · rintro ⟨offset, inside, rfl⟩; omega
  · rintro ⟨low, high⟩; exact ⟨page - range.base / 4096, by omega, by omega⟩

end Navy
