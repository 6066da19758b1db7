import Navy.Library.Bytes

/-! Stacks of words that grow downwards in a memory of bytes. -/

namespace WordStack

variable {count address place : Nat} {word : Nat} {words : List Nat} {bytes other : Bytes}

/-- The words of `count` bytes that lie one after the other from an address on. -/
def Holds (count : Nat) (bytes : Bytes) : Nat → List Nat → Prop
  | _, [] => True
  | address, word :: words => bytes.read address count = word ∧ Holds count bytes (address + count) words

theorem Holds.congr (holds : Holds count bytes address words)
    (same : ∀ place, address ≤ place → place < address + count * words.length → other place = bytes place) :
    Holds count other address words := by
  induction words generalizing address with
  | nil => trivial
  | cons word words ih =>
    rw [List.length_cons, Nat.mul_succ] at same
    obtain ⟨first, rest⟩ := holds
    refine ⟨?_, ih rest fun place low high => same place (by omega) (by omega)⟩
    rw [Bytes.read_congr fun place low high => same place low (by omega)]
    exact first

theorem Holds.push (holds : Holds count bytes address words) (small : word < 256 ^ count) (room : count ≤ address) :
    Holds count (bytes.write (address - count) count word) (address - count) (word :: words) := by
  refine ⟨?_, ?_⟩
  · rw [Bytes.read_write, Nat.mod_eq_of_lt small]
  · rw [Nat.sub_add_cancel room]
    exact holds.congr fun place low _ => Bytes.write_apart _ _ _ _ _ (by omega)

theorem Holds.get (holds : Holds count bytes address words) {index : Nat} (found : words[index]? = some word) :
    bytes.read (address + count * index) count = word := by
  induction words generalizing address index with
  | nil => cases found
  | cons first words ih =>
    cases index with
    | zero =>
      rw [Nat.mul_zero, Nat.add_zero, holds.1]
      exact Option.some.inj found
    | succ index =>
      have next := ih holds.2 (by simpa using found)
      rw [← next]
      congr 1
      rw [Nat.mul_succ]
      omega

/-- What lies behind the first words. -/
theorem Holds.behind {first second : List Nat} (holds : Holds count bytes address (first ++ second)) :
    Holds count bytes (address + count * first.length) second := by
  induction first generalizing address with
  | nil => exact holds
  | cons word first ih =>
    have rest := ih holds.2
    rw [List.length_cons, Nat.mul_succ, Nat.add_comm (count * _), ← Nat.add_assoc]
    exact rest

end WordStack
