import Navy.TestIpc
import Navy.Proofs.Numbers

/-! The lines the test program prints. They do not depend on what the local
arrays of `itoa` hold. -/

namespace Navy
open Outcome

/-- Only negative integers are put together in the local arrays. -/
def FmtValue.Plain : FmtValue → Prop
  | .decimal val => 0 ≤ val.toInt
  | .string _ | .char _ => True

section Plain

variable {locals others : Nat → BitVec 8} {args : List FmtValue}

theorem decimalStyle_plain {mode : BitVec 8} {nbr : BitVec 64} (plain : 0 ≤ nbr.toInt) :
    0 ≤ (decimalStyle mode nbr).nbr.toInt ∨ (decimalStyle mode nbr).base = 10 := by
  unfold decimalStyle
  repeat' split
  all_goals simp [plain]

theorem printValue_plain {value : FmtValue} (plain : value.Plain) (mode : BitVec 8) :
    printValue locals mode value = printValue others mode value := by
  cases value with
  | char chr => rfl
  | string str => rfl
  | decimal val =>
    have small := @decimalStyle_plain mode val plain
    show printDecimal locals (decimalStyle mode val) = printDecimal others (decimalStyle mode val)
    unfold printDecimal
    rw [itoa_whole locals small, itoa_whole others small]

theorem printTurn_plain (plain : ∀ value ∈ args, value.Plain) (scanner : FmtScanner) (current : Nat) :
    printTurn locals args scanner current = printTurn others args scanner current := by
  have argument (mode : BitVec 8) : printArgument locals args mode current =
    printArgument others args mode current := by
    unfold printArgument
    cases found : args[current]? with
    | none => rfl
    | some value =>
      have same := @printValue_plain locals others value (plain value (List.mem_of_getElem? found)) mode
      dsimp only
      rw [same]
  unfold printTurn
  simp only [argument]

theorem printLoop_plain (plain : ∀ value ∈ args, value.Plain) (fuel : Nat) (scanner : FmtScanner) (current : Nat) :
    printLoop locals args fuel scanner current = printLoop others args fuel scanner current := by
  induction fuel generalizing scanner current with
  | zero => rfl
  | succ fuel ih =>
    unfold printLoop
    simp only [@printTurn_plain locals others args plain scanner current, ih]

theorem printFormat_plain (plain : ∀ value ∈ args, value.Plain) (format : List (BitVec 8)) :
    printFormat locals format args = printFormat others format args := by
  unfold printFormat
  simp only [@printLoop_plain locals others args plain]

end Plain

namespace TestIpc

theorem logImplUserspace_plain {locals others : Nat → BitVec 8} {pid lineNbr : Nat} {filename : Text}
    {format : String} {args : List FmtValue} (own : pid < 2 ^ 63) (line : lineNbr < 2 ^ 63)
    (plain : ∀ value ∈ args, value.Plain) :
    logImplUserspace locals pid filename lineNbr format args =
      logImplUserspace others pid filename lineNbr format args := by
  have natural {number : Nat} (small : number < 2 ^ 63) : (FmtValue.decimal (BitVec.ofNat 64 number)).Plain := by
    show 0 ≤ (BitVec.ofNat 64 number).toInt
    rw [BitVec.toInt_eq_toNat_of_lt] <;> rw [BitVec.toNat_ofNat, Nat.mod_eq_of_lt (by omega)] <;> omega
  have head : ∀ value ∈ [.decimal (BitVec.ofNat 64 pid), .string filename, .decimal (BitVec.ofNat 64 lineNbr)],
    FmtValue.Plain value := by
    intro value among
    simp only [List.mem_cons, List.not_mem_nil, or_false] at among
    rcases among with rfl | rfl | rfl
    · exact natural own
    · trivial
    · exact natural line
  unfold logImplUserspace
  rw [@printFormat_plain locals others _ head, @printFormat_plain locals others args plain]

/-- The two messages on their way. -/
def letterOne : Ipc := ⟨3, 1, 0xdeadbeef⟩
def letterTwo : Ipc := ⟨3, 2, 0xcafebabe⟩

def lineOne : List (BitVec 8) := ascii "\x1b[92m(1) main.c:27\x1b[0m Got IPC from 3 with value deadbeef\n"
def lineTwo : List (BitVec 8) := ascii "\x1b[92m(2) main.c:34\x1b[0m Got IPC ONESHOT from 3 with value cafebabe\n"

/-- The calls of `sys_log` that a `log` makes. -/
def logTexts (pid line : Nat) (format : String) (args : List FmtValue) : List (List (BitVec 8)) :=
  match logged (logImplUserspace (fun _ => 0) pid filename line format args) with
  | .ok texts => texts
  | .error _ => []

theorem logged_texts {pid number : Nat} {format : String} {args : List FmtValue} {line : List (BitVec 8)}
    (own : pid < 2 ^ 63) (small : number < 2 ^ 63) (plain : ∀ value ∈ args, value.Plain)
    (told : (logged (logImplUserspace (fun _ => 0) pid filename number format args)).map List.flatten = .ok line) :
    (∀ locals, logged (logImplUserspace locals pid filename number format args) =
      .ok (logTexts pid number format args)) ∧
      (logTexts pid number format args).flatten = line := by
  obtain ⟨texts, ran, flat⟩ := map_ok told
  have texts_eq : logTexts pid number format args = texts := by
    unfold logTexts
    rw [ran]
  refine ⟨fun locals => ?_, texts_eq ▸ flat⟩
  rw [@logImplUserspace_plain locals (fun _ => 0) pid number filename format args own small plain, ran, texts_eq]

/-- What a process does with its message, and the line it prints of it. -/
structure Tells (pid : Nat) (point : Point) (line : List (BitVec 8)) (texts : List (List (BitVec 8))) : Prop where
  logs : ∃ number format args, point = .log number format args ∧
    ∀ locals, logged (logImplUserspace locals pid filename number format args) = .ok texts
  line : texts.flatten = line

def textsOne : List (List (BitVec 8)) := logTexts 1 27 gotFormat [.decimal 3, .decimal 0xdeadbeef]
def textsTwo : List (List (BitVec 8)) := logTexts 2 34 gotOneshotFormat [.decimal 3, .decimal 0xcafebabe]

theorem tells_one : Tells 1 (gotIpc letterOne) lineOne textsOne := by
  obtain ⟨logs, line⟩ := @logged_texts 1 27 gotFormat [.decimal 3, .decimal 0xdeadbeef] lineOne (by decide)
    (by decide) (by simp [FmtValue.Plain])
    (by decide +kernel)
  exact ⟨⟨_, _, _, rfl, logs⟩, line⟩

theorem tells_two : Tells 2 (gotIpcOneshot letterTwo) lineTwo textsTwo := by
  obtain ⟨logs, line⟩ := @logged_texts 2 34 gotOneshotFormat [.decimal 3, .decimal 0xcafebabe] lineTwo (by decide)
    (by decide) (by simp [FmtValue.Plain])
    (by decide +kernel)
  exact ⟨⟨_, _, _, rfl, logs⟩, line⟩

end TestIpc

end Navy
