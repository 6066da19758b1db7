import Mathlib.Logic.Function.Basic
import Mathlib.Data.Nat.Bitwise

/-! Memories of bytes: packed bit arrays and little-endian words. Both views
are total functions of an index, so a bound is always the caller's obligation. -/

abbrev Bytes := Nat → BitVec 8

namespace Bytes

/-- Bit `index` of a packed bit array, least significant bit of each byte first. -/
def bit (bytes : Bytes) (index : Nat) : Bool := (bytes (index / 8)).getLsbD (index % 8)

def setBit (bytes : Bytes) (index : Nat) : Bytes :=
  Function.update bytes (index / 8) (bytes (index / 8) ||| (1#8 <<< (index % 8)))

def clearBit (bytes : Bytes) (index : Nat) : Bytes :=
  Function.update bytes (index / 8) (bytes (index / 8) &&& ~~~(1#8 <<< (index % 8)))

private theorem mask_bit (place other : Nat) (inside : other < 8) :
    (1#8 <<< place).getLsbD other = decide (other = place) := by
  simp only [BitVec.getLsbD_shiftLeft, BitVec.getLsbD_one, inside, decide_true, Bool.true_and]
  by_cases same : other = place
  · simp [same]
  · by_cases below : other < place
    · simp [below, same]
    · have : other - place ≠ 0 := by omega
      simp [below, same, this]

theorem bit_setBit (bytes : Bytes) (index other : Nat) :
    (bytes.setBit index).bit other = (decide (other = index) || bytes.bit other) := by
  simp only [bit, setBit, Function.update_apply]
  by_cases byte : other / 8 = index / 8
  · have place : other % 8 = index % 8 ↔ other = index := by omega
    simp only [byte, if_true, BitVec.getLsbD_or, mask_bit _ _ (Nat.mod_lt other (by decide)), place]
    exact Bool.or_comm _ _
  · have different : other ≠ index := by rintro rfl; exact byte rfl
    simp [byte, different]

theorem bit_clearBit (bytes : Bytes) (index other : Nat) :
    (bytes.clearBit index).bit other = (!decide (other = index) && bytes.bit other) := by
  simp only [bit, clearBit, Function.update_apply]
  by_cases byte : other / 8 = index / 8
  · have place : other % 8 = index % 8 ↔ other = index := by omega
    have inside : other % 8 < 8 := Nat.mod_lt other (by decide)
    simp only [byte, if_true, BitVec.getLsbD_and, BitVec.getLsbD_not, mask_bit _ _ inside, place,
      inside, decide_true, Bool.true_and]
    exact Bool.and_comm _ _
  · have different : other ≠ index := by rintro rfl; exact byte rfl
    simp [byte, different]

/-- A packed bit array is determined by its bits. -/
theorem ext_bit {first second : Bytes} (same : ∀ index, first.bit index = second.bit index) : first = second := by
  funext byte
  apply BitVec.eq_of_getLsbD_eq
  intro place inside
  have := same (8 * byte + place)
  simpa only [bit, Nat.mul_add_div (by decide : 0 < 8), Nat.div_eq_of_lt inside, Nat.add_zero,
    Nat.mul_add_mod, Nat.mod_eq_of_lt inside] using this

/-- The number stored little-endian in `count` bytes. -/
def read (bytes : Bytes) (address : Nat) : Nat → Nat
  | 0 => 0
  | count + 1 => (bytes address).toNat + 256 * read bytes (address + 1) count

def write (bytes : Bytes) (address : Nat) : Nat → Nat → Bytes
  | 0, _ => bytes
  | count + 1, value => write (Function.update bytes address (BitVec.ofNat 8 value)) (address + 1) count (value / 256)

def fill (bytes : Bytes) (address count : Nat) (value : BitVec 8) : Bytes := fun place =>
  if address ≤ place ∧ place < address + count then value else bytes place

/-- Byte-by-byte copy in ascending order. -/
def copy (bytes : Bytes) (target source : Nat) : Nat → Bytes
  | 0 => bytes
  | count + 1 => copy (Function.update bytes target (bytes source)) (target + 1) (source + 1) count

theorem read_congr {first second : Bytes} {address count : Nat}
    (same : ∀ place, address ≤ place → place < address + count → first place = second place) :
    first.read address count = second.read address count := by
  induction count generalizing address with
  | zero => rfl
  | succ count ih =>
    simp only [read]
    rw [same address (by omega) (by omega), ih (fun place low high => same place (by omega) (by omega))]

theorem read_zero (address count : Nat) : read (fun _ => 0#8) address count = 0 := by
  induction count generalizing address with
  | zero => rfl
  | succ count ih => simp [read, ih]

theorem read_lt (bytes : Bytes) (address count : Nat) : bytes.read address count < 256 ^ count := by
  induction count generalizing address with
  | zero => simp [read]
  | succ count ih =>
    have byte := (bytes address).isLt
    have rest := ih (address + 1)
    simp only [read, pow_succ]
    omega

theorem write_apart (bytes : Bytes) (address count value place : Nat)
    (apart : place < address ∨ address + count ≤ place) : bytes.write address count value place = bytes place := by
  induction count generalizing bytes address value with
  | zero => rfl
  | succ count ih =>
    simp only [write]
    rw [ih _ _ _ (by omega), Function.update_of_ne (by omega)]

theorem read_write (bytes : Bytes) (address count value : Nat) :
    (bytes.write address count value).read address count = value % 256 ^ count := by
  induction count generalizing bytes address value with
  | zero => simp [read, Nat.mod_one]
  | succ count ih =>
    simp only [read, write]
    rw [write_apart _ _ _ _ _ (by omega), Function.update_self, ih, BitVec.toNat_ofNat]
    have split : value % (256 * 256 ^ count) = value % 256 + 256 * (value / 256 % 256 ^ count) := Nat.mod_mul
    exact split.symm.trans (congrArg (value % ·) (Nat.pow_succ' (m := 256)).symm)

theorem read_write_apart (bytes : Bytes) (address count value other length : Nat)
    (apart : other + length ≤ address ∨ address + count ≤ other) :
    (bytes.write address count value).read other length = bytes.read other length :=
  read_congr fun place low high => write_apart _ _ _ _ _ (by omega)

theorem fill_apart (bytes : Bytes) (address count : Nat) (value : BitVec 8) (place : Nat)
    (apart : place < address ∨ address + count ≤ place) : bytes.fill address count value place = bytes place :=
  if_neg (by omega)

theorem fill_inside (bytes : Bytes) (address count : Nat) (value : BitVec 8) (place : Nat)
    (low : address ≤ place) (high : place < address + count) : bytes.fill address count value place = value :=
  if_pos ⟨low, high⟩

theorem read_fill_zero (bytes : Bytes) (address count other length : Nat)
    (low : address ≤ other) (high : other + length ≤ address + count) :
    (bytes.fill address count 0).read other length = 0 := by
  induction length generalizing other with
  | zero => rfl
  | succ length ih =>
    simp only [read]
    rw [fill_inside _ _ _ _ _ low (by omega), ih (other + 1) (by omega) (by omega)]
    rfl

theorem copy_apart (bytes : Bytes) (target source count place : Nat)
    (apart : place < target ∨ target + count ≤ place) : bytes.copy target source count place = bytes place := by
  induction count generalizing bytes target source with
  | zero => rfl
  | succ count ih =>
    simp only [copy]
    rw [ih _ _ _ (by omega), Function.update_of_ne (by omega)]

/-- The copy is exact between disjoint regions, and downwards. -/
theorem copy_inside (bytes : Bytes) (target source count offset : Nat) (inside : offset < count)
    (apart : source + count ≤ target ∨ target ≤ source) :
    bytes.copy target source count (target + offset) = bytes (source + offset) := by
  induction count generalizing bytes target source offset with
  | zero => omega
  | succ count ih =>
    simp only [copy]
    cases offset with
    | zero => rw [copy_apart _ _ _ _ _ (by omega), Nat.add_zero, Function.update_self, Nat.add_zero]
    | succ offset =>
      have next := ih (Function.update bytes target (bytes source)) (target + 1) (source + 1) offset
        (by omega) (by omega)
      rw [show target + (offset + 1) = target + 1 + offset by omega, next, Function.update_of_ne (by omega),
        show source + 1 + offset = source + (offset + 1) by omega]

/-- Upwards over an overlap the bytes in front of the target come again and again. -/
theorem copy_above (bytes : Bytes) (source count distance offset : Nat) (inside : offset < count)
    (above : 0 < distance) :
    bytes.copy (source + distance) source count (source + distance + offset) = bytes (source + offset % distance) := by
  induction count generalizing bytes source offset with
  | zero => omega
  | succ count ih =>
    simp only [copy]
    cases offset with
    | zero => rw [copy_apart _ _ _ _ _ (by omega), Nat.add_zero, Function.update_self, Nat.zero_mod, Nat.add_zero]
    | succ offset =>
      have next := ih (Function.update bytes (source + distance) (bytes source)) (source + 1) offset (by omega)
      rw [show source + 1 + distance = source + distance + 1 by omega] at next
      rw [show source + distance + (offset + 1) = source + distance + 1 + offset by omega, next]
      have small := Nat.mod_lt offset above
      have turn : (offset + 1) % distance = (offset % distance + 1) % distance := by
        rw [Nat.mod_add_mod]
      by_cases last : offset % distance + 1 = distance
      · rw [turn, last, Nat.mod_self, show source + 1 + offset % distance = source + distance by omega,
          Function.update_self, Nat.add_zero]
      · rw [turn, Nat.mod_eq_of_lt (by omega : offset % distance + 1 < distance), Function.update_of_ne (by omega),
          show source + 1 + offset % distance = source + (offset % distance + 1) by omega]

/-- A copy in two parts. -/
theorem copy_add (bytes : Bytes) (target source first last : Nat) :
    bytes.copy target source (first + last) = (bytes.copy target source first).copy (target + first)
      (source + first) last := by
  induction first generalizing bytes target source with
  | zero => simp [copy]
  | succ first ih =>
    rw [Nat.add_right_comm first 1 last]
    simp only [copy]
    rw [ih, Nat.add_assoc target 1 first, Nat.add_assoc source 1 first, Nat.add_comm 1 first]

/-- A word that is read and written elsewhere is copied. -/
theorem write_read (bytes : Bytes) (target source count : Nat)
    (apart : source + count ≤ target ∨ target + count ≤ source) :
    bytes.write target count (bytes.read source count) = bytes.copy target source count := by
  induction count generalizing bytes target source with
  | zero => rfl
  | succ count ih =>
    have byte := (bytes source).isLt
    have low : BitVec.ofNat 8 ((bytes source).toNat + 256 * bytes.read (source + 1) count) = bytes source := by
      apply BitVec.eq_of_toNat_eq
      rw [BitVec.toNat_ofNat]
      omega
    have high : ((bytes source).toNat + 256 * bytes.read (source + 1) count) / 256 =
      bytes.read (source + 1) count := by omega
    have kept : read (Function.update bytes target (bytes source)) (source + 1) count = bytes.read (source + 1) count :=
      read_congr fun place first last => Function.update_of_ne (by omega) _ _
    simp only [read, write, copy]
    rw [low, high, ← kept]
    exact ih _ _ _ (by omega)

section Aside

variable (bytes : Bytes) {place address count : Nat} (value : BitVec 8)

/-! A byte that an operation neither reads nor writes can be changed before it or after it. -/

theorem read_update (apart : place < address ∨ address + count ≤ place) :
    read (Function.update bytes place value) address count = bytes.read address count :=
  read_congr fun _ _ _ => Function.update_of_ne (by omega) _ _

theorem write_update (word : Nat) (apart : place < address ∨ address + count ≤ place) :
    write (Function.update bytes place value) address count word = Function.update
      (bytes.write address count word) place value := by
  induction count generalizing bytes address word with
  | zero => rfl
  | succ count ih =>
    simp only [write]
    rw [Function.update_comm (show place ≠ address by omega)]
    exact ih _ _ (by omega)

theorem fill_update (filler : BitVec 8) (apart : place < address ∨ address + count ≤ place) :
    fill (Function.update bytes place value) address count filler = Function.update
      (bytes.fill address count filler) place value := by
  funext other
  by_cases same : other = place
  · subst same
    rw [fill_apart _ _ _ _ _ apart, Function.update_self, Function.update_self]
  · rw [Function.update_of_ne same]
    simp only [fill, Function.update_of_ne same]

theorem copy_update {source : Nat} (apart : place < address ∨ address + count ≤ place)
    (unread : place < source ∨ source + count ≤ place) :
    copy (Function.update bytes place value) address source count = Function.update
      (bytes.copy address source count) place value := by
  induction count generalizing bytes address source with
  | zero => rfl
  | succ count ih =>
    simp only [copy]
    rw [Function.update_of_ne (show source ≠ place by omega), Function.update_comm (show place ≠ address by omega)]
    exact ih _ (by omega) (by omega)

end Aside

end Bytes
