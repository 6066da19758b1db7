import Navy.Proofs.Symbols

/-! Which symbol files the parser reads without a fault. -/

namespace Navy
open Outcome

/-- A line with room for its newline and an address and a length in front of its
first terminator, whose name fits the buffer of the caller if it is copied. -/
structure SafeLine (ptr : BitVec 64) (line : List (BitVec 8)) : Prop where
  single : 10 ∉ line
  short : line.length < symbolLineSize
  fields : ∃ fields, symbolFields (textOf (line ++ [0])) = some fields ∧
    (fields.Match ptr → ∀ name, fields.name = some name → name.length ≤ 64)

/-- Lines that are read, each with its newline and the byte behind it, and the
beginning of a line that is not. -/
def SafeFile (ptr : BitVec 64) (symbols : List (BitVec 8)) : Prop :=
  ∃ (lines : List (List (BitVec 8) × BitVec 8)) (tail : List (BitVec 8)),
    symbols = lines.flatMap (fun line => line.1 ++ [10, line.2]) ++ tail ∧ (∀ line ∈ lines, SafeLine ptr line.1) ∧
      10 ∉ tail.dropLast ∧ tail.length ≤ symbolLineSize

variable {text before after : List (BitVec 8)} {ptr : BitVec 64}

theorem putName_length {name : Option (List (BitVec 8))} (put : putName before name = .ok after) :
    after.length = before.length := by
  cases name with
  | none =>
    cases put
    rfl
  | some name =>
    obtain ⟨fits, put⟩ := ite_ok put
    cases put
    rw [overlay, List.length_append, List.length_drop]
    omega

theorem effect_length {fields : SymbolFields} (done : fields.effect ptr before = .ok after) :
    after.length = before.length := by
  unfold SymbolFields.effect at done
  split at done
  next => exact putName_length done
  next =>
    cases done
    rfl

theorem effect_ok_iff {fields : SymbolFields} (room : before.length = 64) :
    (∃ after, fields.effect ptr before = .ok after) ↔
    (fields.Match ptr → ∀ name, fields.name = some name → name.length ≤ 64) := by
  unfold SymbolFields.effect
  cases found : fields.Match ptr with
  | false => simp
  | true =>
    rw [if_pos rfl]
    cases fields.name with
    | none => simp [putName]
    | some name =>
      constructor
      · intro done _ other same
        obtain rfl := Option.some.inj same
        obtain ⟨after, done⟩ := done
        rw [← room]
        exact (ite_ok done).1
      · intro fits
        exact ⟨overlay before name, if_pos (by rw [room]; exact fits rfl name rfl)⟩

theorem lineEffect_length (read : lineEffect ptr text before = .ok after) : after.length = before.length := by
  unfold lineEffect at read
  split at read
  next => cases read
  next => exact effect_length read

theorem lineEffect_ok_iff (room : before.length = 64) :
    (∃ after, lineEffect ptr text before = .ok after) ↔ ∃ fields, symbolFields text = some fields ∧
      (fields.Match ptr → ∀ name, fields.name = some name → name.length ≤ 64) := by
  unfold lineEffect
  cases symbolFields text with
  | none => simp
  | some fields =>
    dsimp only
    rw [effect_ok_iff room]
    simp

/-- A file that is read to its end consists of safe lines. -/
theorem Reads.safe {symbols : List (BitVec 8)} (reads : Reads ptr symbols before after)
    (room : before.length = 64) : SafeFile ptr symbols := by
  induction reads with
  | @last tail buffer going short => exact ⟨[], tail, rfl, by simp, going, short⟩
  | @line line rest before middle after byte single short read others ih =>
    obtain ⟨lines, tail, rfl, safe, going, short'⟩ := ih ((lineEffect_length read).trans room)
    refine ⟨(line, byte) :: lines, tail, by simp, ?_, going, short'⟩
    rw [List.forall_mem_cons]
    exact ⟨⟨single, short, (lineEffect_ok_iff room).mp ⟨middle, read⟩⟩, safe⟩

/-- Safe lines are read one after the other. -/
theorem reads_safe {lines : List (List (BitVec 8) × BitVec 8)} {tail : List (BitVec 8)}
    (safe : ∀ line ∈ lines, SafeLine ptr line.1) (going : 10 ∉ tail.dropLast)
    (short : tail.length ≤ symbolLineSize) (room : before.length = 64) :
    ∃ after, Reads ptr (lines.flatMap (fun line => line.1 ++ [10, line.2]) ++ tail) before after := by
  induction lines generalizing before with
  | nil => exact ⟨before, .last going short⟩
  | cons line lines ih =>
    obtain ⟨this, others⟩ := List.forall_mem_cons.mp safe
    obtain ⟨middle, read⟩ := (lineEffect_ok_iff room).mpr this.fields
    obtain ⟨after, reads⟩ := ih others ((lineEffect_length read).trans room)
    have shape : (line :: lines).flatMap (fun line => line.1 ++ [10, line.2]) ++ tail =
        line.1 ++ 10 :: line.2 :: (lines.flatMap (fun line => line.1 ++ [10, line.2]) ++ tail) := by simp
    rw [shape]
    exact ⟨after, .line line.2 this.single this.short read reads⟩

/-- The parser comes back from a file, whatever bytes it has, just when its lines are
safe. A line that is not sends it behind one of the two buffers or to a null pointer. -/
theorem findSymbols_safe_iff (symbols : List (BitVec 8)) (p : Option Nat) (ptr : BitVec 64) (buffer : List (BitVec 8))
    (room : buffer.length = 64) : (findSymbols symbols p ptr buffer).isOk ↔ SafeFile ptr symbols := by
  constructor
  · intro returns
    obtain ⟨scan, ran⟩ := exists_of_isOk _ returns
    exact ((findSymbols_reads ptr symbols p buffer scan.buffer).mp ⟨scan, ran, rfl⟩).safe room
  · rintro ⟨lines, tail, rfl, safe, going, short⟩
    obtain ⟨after, reads⟩ := reads_safe safe going short room
    obtain ⟨scan, ran, -⟩ := (findSymbols_reads ptr _ p buffer after).mpr reads
    rw [ran]
    rfl

/-- Two entries, the first of them with all of its line. -/
private def twoSymbols : List (BitVec 8) :=
  "ffffffff80000000 10 T f\n\nffffffff80000010 8 T g\n".toList.map fun letter => BitVec.ofNat 8 letter.toNat

private theorem twoSymbols_ran : (findSymbols twoSymbols none 0xffffffff80000004 (List.replicate 64 0)).isOk := by
    decide +kernel

theorem findSymbols_safe_line : ∃ symbols : List (BitVec 8), 10 ∈ symbols.dropLast ∧
    SafeFile 0xffffffff80000004 symbols :=
  ⟨twoSymbols, by decide +kernel, (findSymbols_safe_iff twoSymbols none 0xffffffff80000004
    (List.replicate 64 0) List.length_replicate).mp twoSymbols_ran⟩

/-- Of an empty line the parser dereferences the length, which is `NULL`. -/
theorem findSymbols_empty_line :
    ¬ ∀ (symbols : List (BitVec 8)) (p : Option Nat) (ptr : BitVec 64) (buffer : List (BitVec 8)), buffer.length = 64 →
      (findSymbols symbols p ptr buffer).isOk := by
  intro safe
  obtain ⟨p', run⟩ := @line_run [] 0 List.not_mem_nil 10 [] none (List.replicate 64 0)
  have fault : findSymbols [10, 10] none 0 (List.replicate 64 0) = .error .outOfBounds := run
  have returns := safe [10, 10] none 0 (List.replicate 64 0) List.length_replicate
  rw [fault] at returns
  cases returns

end Navy
