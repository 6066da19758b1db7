import Navy.Mmu
import Navy.Library.RadixForest
import Mathlib.Tactic.IntervalCases

/-! Page-table entries as words in memory, and page tables as the tables of a
radix forest. -/

namespace Navy.Paging
open RadixForest

/-- The fields of an entry that the packed struct has room for. -/
structure Fits (entry : PmlEntry) : Prop where
  available : entry.available < 8
  physical : entry.physical < 2 ^ 52

private theorem testBit_cons_zero (bit : Bool) (rest : Nat) : (bit.toNat + 2 * rest).testBit 0 = bit := by
  rw [Nat.testBit_zero]
  cases bit <;> simp

private theorem testBit_cons_succ (bit : Bool) (rest place : Nat) :
    (bit.toNat + 2 * rest).testBit (place + 1) = rest.testBit place := by
  have half : (bit.toNat + 2 * rest) / 2 = rest := by
    cases bit <;> simp only [Bool.toNat_true, Bool.toNat_false] <;> omega
  rw [Nat.testBit_succ, half]

private theorem cons_split {flag flags bound rest word : Nat} (bit : flag ≤ 1) (small : flags < bound)
    (same : word = flags + bound * rest) :
    flag + 2 * flags < 2 * bound ∧ flag + 2 * word = flag + 2 * flags + 2 * bound * rest := by
  rw [same, Nat.mul_assoc]
  omega

/-- The nine flags take the low nine bits. -/
private theorem raw_flags (entry : PmlEntry) :
    ∃ flags, flags < 512 ∧ entry.raw = flags + 512 * (entry.available + 8 * entry.physical) := by
  have bit (flag : Bool) : flag.toNat ≤ 1 := by cases flag <;> decide
  have last : entry.available + 8 * entry.physical = 0 + 1 * (entry.available + 8 * entry.physical) := by
    rw [Nat.one_mul, Nat.zero_add]
  obtain ⟨small, same⟩ := cons_split (bit entry.globalPage) Nat.one_pos last
  obtain ⟨small, same⟩ := cons_split (bit entry.hugePage) small same
  obtain ⟨small, same⟩ := cons_split (bit entry.dirty) small same
  obtain ⟨small, same⟩ := cons_split (bit entry.accessed) small same
  obtain ⟨small, same⟩ := cons_split (bit entry.cachingDisable) small same
  obtain ⟨small, same⟩ := cons_split (bit entry.caching) small same
  obtain ⟨small, same⟩ := cons_split (bit entry.user) small same
  obtain ⟨small, same⟩ := cons_split (bit entry.readWrite) small same
  obtain ⟨small, same⟩ := cons_split (bit entry.present) small same
  exact ⟨_, small, same⟩

private theorem raw_bits (entry : PmlEntry) :
    entry.raw.testBit 0 = entry.present ∧ entry.raw.testBit 1 = entry.readWrite ∧
    entry.raw.testBit 2 = entry.user ∧ entry.raw.testBit 3 = entry.caching ∧
    entry.raw.testBit 4 = entry.cachingDisable ∧ entry.raw.testBit 5 = entry.accessed ∧
    entry.raw.testBit 6 = entry.dirty ∧ entry.raw.testBit 7 = entry.hugePage ∧
    entry.raw.testBit 8 = entry.globalPage := by
  unfold PmlEntry.raw
  refine ⟨?_, ?_, ?_, ?_, ?_, ?_, ?_, ?_, ?_⟩
  · exact testBit_cons_zero _ _
  all_goals simp only [testBit_cons_succ, testBit_cons_zero]

theorem ofRaw_raw {entry : PmlEntry} (fits : Fits entry) : PmlEntry.ofRaw entry.raw = entry := by
  have available := fits.available
  obtain ⟨flags, small, split⟩ := raw_flags entry
  have bits := raw_bits entry
  generalize entry.raw = word at split bits ⊢
  have high : word / 2 ^ 9 % 8 = entry.available ∧ word / 2 ^ 12 = entry.physical := by omega
  simp only [PmlEntry.ofRaw, bits, high]

theorem raw_lt {entry : PmlEntry} (fits : Fits entry) : entry.raw < 2 ^ 64 := by
  have available := fits.available
  have physical := fits.physical
  obtain ⟨flags, small, split⟩ := raw_flags entry
  generalize entry.raw = word at split ⊢
  omega

theorem ofRaw_fits {raw : Nat} (small : raw < 2 ^ 64) : Fits (PmlEntry.ofRaw raw) :=
  ⟨Nat.mod_lt _ (by decide), by show raw / 2 ^ 12 < 2 ^ 52; omega⟩

theorem pmlMakeEntry_fits (physical : Nat) (isUser : Bool) : Fits (pmlMakeEntry physical isUser) := by
  refine ⟨Nat.zero_lt_succ 7, ?_⟩
  show wrap physical >>> 12 < 2 ^ 52
  rw [Nat.shiftRight_eq_div_pow]
  simp only [wrap]
  omega

theorem emptyEntry_fits : Fits emptyEntry := ofRaw_fits (by decide)

/-- Page-aligned addresses survive the trip through an entry. -/
theorem pmlMakeEntry_address (physical : Nat) (isUser : Bool) :
    (pmlMakeEntry physical isUser).address = wrap physical / 4096 * 4096 := by
  simp only [PmlEntry.address, pmlMakeEntry, Nat.shiftRight_eq_div_pow, Nat.shiftLeft_eq, wrap]
  omega

/-- The page tables of the machine as a radix store; places that are no table
slot hold the empty entry. -/
@[irreducible] def tableEntry (mem : Bytes) (table index : Nat) : PmlEntry :=
  if table % 4096 = 0 ∧ index < 512 then .ofRaw (mem.read (table + 8 * index) 8) else emptyEntry

/-- The table an interior entry points to. -/
def child (entry : PmlEntry) : Option Nat := if entry.present then some entry.address else none

theorem child_empty : child emptyEntry = none := by decide

theorem child_aligned {entry : PmlEntry} {table : Nat} (found : child entry = some table) :
    table % 4096 = 0 ∧ table < 2 ^ 64 := by
  unfold child at found
  split at found
  · cases found
    simp only [PmlEntry.address, Nat.shiftLeft_eq, wrap]
    omega
  · cases found

theorem tableEntry_write {mem : Bytes} {table index : Nat} {entry : PmlEntry} (aligned : table % 4096 = 0)
    (inside : index < 512) (fits : Fits entry) :
    tableEntry (mem.write (table + 8 * index) 8 entry.raw) = put (tableEntry mem) table index entry := by
  funext other place
  unfold tableEntry put
  by_cases slot : other % 4096 = 0 ∧ place < 512
  · simp only [slot, and_self, if_true]
    by_cases same : other = table ∧ place = index
    · obtain ⟨rfl, rfl⟩ := same
      have small : entry.raw % 256 ^ 8 = entry.raw := Nat.mod_eq_of_lt (raw_lt fits)
      rw [Bytes.read_write, small, ofRaw_raw fits, if_pos ⟨rfl, rfl⟩]
    · rw [Bytes.read_write_apart _ _ _ _ _ _ (by omega), if_neg same]
  · have different : ¬ (other = table ∧ place = index) := by
      rintro ⟨rfl, rfl⟩
      exact slot ⟨aligned, inside⟩
    simp only [slot, different, if_false]

theorem tableEntry_zero (mem : Bytes) {table : Nat} (aligned : table % 4096 = 0) :
    tableEntry (mem.fill table 4096 0) = fun other place =>
      if other = table then emptyEntry else tableEntry mem other place := by
  funext other place
  unfold tableEntry
  by_cases slot : other % 4096 = 0 ∧ place < 512
  · simp only [slot, and_self, if_true]
    by_cases same : other = table
    · subst other
      rw [if_pos rfl, Bytes.read_fill_zero _ _ _ _ _ (by omega) (by omega)]
      rfl
    · rw [if_neg same]
      exact congrArg PmlEntry.ofRaw (Bytes.read_congr fun address low high => Bytes.fill_apart _ _ _ _ _ (by omega))
  · simp only [slot, if_false, ite_self]

/-- A table keeps its entries when none of its bytes change. -/
theorem tableEntry_congr {mem after : Bytes} {table : Nat}
    (same : ∀ place, place / 4096 = table / 4096 → after place = mem place) (index : Nat) :
    tableEntry after table index = tableEntry mem table index := by
  unfold tableEntry
  split
  next slot =>
    exact congrArg PmlEntry.ofRaw (Bytes.read_congr fun place low high => same place (by omega))
  next => rfl

theorem tableEntry_fits (mem : Bytes) (table index : Nat) : Fits (tableEntry mem table index) := by
  unfold tableEntry
  split
  · exact ofRaw_fits (Nat.lt_of_lt_of_le (Bytes.read_lt mem _ 8) (by decide))
  · exact emptyEntry_fits

theorem pmlxGetIndex_eq (addr level : Nat) : pmlxGetIndex addr level = wrap addr / 2 ^ (12 + level * 9) % 512 := by
  rw [pmlxGetIndex, Nat.shiftRight_and_distrib, Nat.shiftLeft_shiftRight, Nat.shiftRight_eq_div_pow]
  exact Nat.and_two_pow_sub_one_eq_mod _ 9

theorem pmlxGetIndex_lt (addr level : Nat) : pmlxGetIndex addr level < 512 := by
  rw [pmlxGetIndex_eq]
  exact Nat.mod_lt _ (by decide)

/-- The interior indices of a virtual address. -/
def pathOf (virt : Nat) : List Nat := [pml4GetIndex virt, pml3GetIndex virt, pml2GetIndex virt]

/-- The four indices are the low 36 bits of the page number. -/
private theorem page_indices (virt : Nat) (small : virt < 2 ^ 64) : virt / 4096 % 2 ^ 36 =
    pml1GetIndex virt + 512 * (pml2GetIndex virt + 512 * (pml3GetIndex virt + 512 * pml4GetIndex virt)) := by
  simp only [pml4GetIndex, pml3GetIndex, pml2GetIndex, pml1GetIndex, pmlxGetIndex_eq]
  rw [wrap_of_lt small]
  omega

/-- Canonical addresses with the same four indices lie in the same page. -/
theorem same_page {first second : Nat} (canonical : Canonical first) (canonical' : Canonical second)
    (path : pathOf first = pathOf second) (leaf : pml1GetIndex first = pml1GetIndex second) :
    first / 4096 = second / 4096 := by
  simp only [pathOf, List.cons.injEq, and_true] at path
  obtain ⟨top, upper, lower⟩ := path
  unfold Canonical at canonical canonical'
  have low := page_indices first (by omega)
  rw [leaf, lower, upper, top, ← page_indices second (by omega)] at low
  omega

theorem indices_congr {first second : Nat} (small : first < 2 ^ 64) (small' : second < 2 ^ 64)
    (page : first / 4096 = second / 4096) :
    pathOf first = pathOf second ∧ pml1GetIndex first = pml1GetIndex second := by
  simp only [pathOf, pml4GetIndex, pml3GetIndex, pml2GetIndex, pml1GetIndex, List.cons.injEq, and_true,
    pmlxGetIndex_eq, wrap]
  omega

/-- The top-level index tells the two halves of the address space apart. -/
theorem userHalf_index {virt : Nat} (canonical : Canonical virt) : 256 ≤ pml4GetIndex virt ↔ ¬ UserHalf virt := by
  simp only [Canonical] at canonical
  simp only [pml4GetIndex, pmlxGetIndex_eq, wrap, UserHalf]
  omega

end Navy.Paging
