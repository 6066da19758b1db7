import Navy.Entry
import Navy.Library.WordStack

/-! The frames of the two ways into the kernel, read as `registers_t`, and the ways
back. -/

namespace Navy
open WordStack

/-- The words a processor pushed onto a stack that starts at `top`. -/
structure Pushed (cpu : Processor) (top : Nat) (words : List (BitVec 64)) : Prop where
  depth : cpu.rsp.toNat + 8 * words.length = top
  words : Holds 8 cpu.mem cpu.rsp.toNat (words.map (·.toNat))

/-- Nothing changes but the stack pointer and what lies between `low` and `top`. -/
structure OnlyPushed (low top : Nat) (cpu after : Processor) : Prop where
  regs : ∀ register, register ≠ .rsp → after.regs register = cpu.regs register
  gs : after.gs = cpu.gs
  kernelGs : after.kernelGs = cpu.kernelGs
  mem : ∀ place, place < low ∨ top ≤ place → after.mem place = cpu.mem place

variable {cpu after last : Processor} {low top : Nat} {words : List (BitVec 64)}

theorem OnlyPushed.refl (cpu : Processor) : OnlyPushed low top cpu cpu := ⟨fun _ _ => rfl, rfl, rfl, fun _ _ => rfl⟩

theorem OnlyPushed.trans (first : OnlyPushed low top cpu after) (second : OnlyPushed low top after last) :
    OnlyPushed low top cpu last where
  regs := fun register other => (second.regs register other).trans (first.regs register other)
  gs := second.gs.trans first.gs
  kernelGs := second.kernelGs.trans first.kernelGs
  mem := fun place outside => (second.mem place outside).trans (first.mem place outside)

@[simp] theorem set_self (cpu : Processor) (target : Gpr) (value : BitVec 64) :
    (cpu.set target value).regs target = value :=
  Function.update_self _ _ _

@[simp] theorem set_rsp (cpu : Processor) (value : BitVec 64) : (cpu.set .rsp value).rsp = value :=
  set_self cpu .rsp value

theorem set_other (cpu : Processor) {target register : Gpr} (other : register ≠ target) (value : BitVec 64) :
    (cpu.set target value).regs register = cpu.regs register :=
  Function.update_of_ne other _ _

theorem Pushed.set (pushed : Pushed cpu top words) {target : Gpr} (other : .rsp ≠ target) (value : BitVec 64) :
    Pushed (cpu.set target value) top words := by
  have kept : (cpu.set target value).rsp = cpu.rsp := set_other cpu other value
  refine ⟨?_, ?_⟩
  · rw [kept]
    exact pushed.depth
  · rw [kept]
    exact pushed.words

theorem push_rsp (cpu : Processor) (value : BitVec 64) : (cpu.push value).rsp = cpu.rsp - 8 := set_rsp cpu (cpu.rsp - 8)

private theorem word_bytes : (8 : BitVec 64).toNat = 8 := rfl

theorem Pushed.push (pushed : Pushed cpu top words) (value : BitVec 64) (room : low + 8 * (words.length + 1) ≤ top) :
    Pushed (cpu.push value) top (value :: words) ∧ OnlyPushed low top cpu (cpu.push value) := by
  have depth := pushed.depth
  have moved : (cpu.push value).rsp.toNat = cpu.rsp.toNat - 8 := by
    have above : (8 : BitVec 64) ≤ cpu.rsp := by
      rw [BitVec.le_def, word_bytes]
      omega
    rw [push_rsp, BitVec.toNat_sub_of_le above, word_bytes]
  have written : (cpu.push value).mem = cpu.mem.write (cpu.rsp.toNat - 8) 8 value.toNat := by
    rw [← moved, push_rsp]
    rfl
  refine ⟨⟨?_, ?_⟩, ⟨fun register other => Function.update_of_ne other _ cpu.regs, rfl, rfl, ?_⟩⟩
  · rw [moved, List.length_cons]
    omega
  · rw [moved, written]
    exact pushed.words.push value.isLt (by omega)
  · intro place outside
    rw [written]
    exact Bytes.write_apart _ _ _ _ _ (by omega)

theorem run_append (cpu : Processor) (first second : List Instruction) :
    cpu.run (first ++ second) = (cpu.run first).run second :=
  List.foldl_append

theorem Pushed.entered (pushed : Pushed cpu top words) (rip cs ss : BitVec 64) :
    Pushed { cpu with rip, cs, ss } top words :=
  ⟨pushed.depth, pushed.words⟩

/-- A list of registers is pushed, the last one on top. -/
theorem Pushed.pushes {registers : List Gpr} (pushed : Pushed cpu top words) (other : .rsp ∉ registers)
    (room : low + 8 * (words.length + registers.length) ≤ top) :
    Pushed (cpu.run (registers.map .push)) top (registers.reverse.map cpu.regs ++ words) ∧
      OnlyPushed low top cpu (cpu.run (registers.map .push)) := by
  induction registers generalizing cpu words with
  | nil => exact ⟨pushed, .refl cpu⟩
  | cons register registers ih =>
    obtain ⟨this, other⟩ := not_or.mp (mt List.mem_cons.mpr other)
    rw [List.length_cons] at room
    obtain ⟨first, only⟩ := pushed.push (cpu.regs register) (show low + 8 * (words.length + 1) ≤ top by omega)
    obtain ⟨rest, only'⟩ := ih first other (by rw [List.length_cons]; omega)
    refine ⟨?_, only.trans only'⟩
    have same : registers.reverse.map (cpu.push (cpu.regs register)).regs = registers.reverse.map cpu.regs := by
      apply List.map_congr_left
      intro member inside
      apply only.regs
      rintro rfl
      exact other (List.mem_reverse.mp inside)
    rw [same] at rest
    rw [List.reverse_cons, List.map_append, List.append_assoc]
    exact rest

theorem Pushed.all (pushed : Pushed cpu top words) (room : low + 8 * (words.length + 15) ≤ top) :
    Pushed (cpu.run (pushAll.map .push)) top (pushAll.reverse.map cpu.regs ++ words) ∧ OnlyPushed low top cpu
      (cpu.run (pushAll.map .push)) :=
  pushed.pushes (by decide) room

section Popping

variable {value : BitVec 64}

theorem load_top (holds : Holds 8 cpu.mem cpu.rsp.toNat ((value :: words).map (·.toNat))) :
    cpu.load cpu.rsp = value := by
  rw [Processor.load, show cpu.mem.read cpu.rsp.toNat 8 = value.toNat from holds.1, BitVec.ofNat_toNat,
    BitVec.setWidth_eq]

theorem drop_rsp (cpu : Processor) (room : cpu.rsp.toNat + 8 < 2 ^ 64) : cpu.drop.rsp.toNat = cpu.rsp.toNat + 8 := by
  rw [Processor.drop, set_rsp, BitVec.toNat_add, word_bytes, Nat.mod_eq_of_lt room]

theorem holds_drop (holds : Holds 8 cpu.mem cpu.rsp.toNat ((value :: words).map (·.toNat)))
    (room : cpu.rsp.toNat + 8 < 2 ^ 64) : Holds 8 cpu.drop.mem cpu.drop.rsp.toNat (words.map (·.toNat)) := by
  rw [drop_rsp cpu room]
  exact holds.2

/-- Registers are popped with the values that lie on the stack for them. -/
theorem pops {registers : List Gpr} {values : Gpr → BitVec 64} (other : .rsp ∉ registers)
    (holds : Holds 8 cpu.mem cpu.rsp.toNat ((registers.map values ++ words).map (·.toNat)))
    (room : cpu.rsp.toNat + 8 * registers.length < 2 ^ 64) :
    ∃ regs, cpu.run (registers.map .pop) = { cpu with regs } ∧
      (∀ register ∈ registers, regs register = values register) ∧
      (∀ register, register ∉ registers → register ≠ .rsp → regs register = cpu.regs register) ∧
      (regs .rsp).toNat = cpu.rsp.toNat + 8 * registers.length := by
  induction registers generalizing cpu with
  | nil => exact ⟨cpu.regs, rfl, by simp, fun _ _ _ => rfl, rfl⟩
  | cons register registers ih =>
    obtain ⟨this, other⟩ := not_or.mp (mt List.mem_cons.mpr other)
    rw [List.length_cons] at room ⊢
    have value : cpu.load cpu.rsp = values register := load_top holds
    let popped := cpu.step (.pop register)
    have moved : popped.rsp = cpu.drop.rsp := Function.update_of_ne this _ _
    have moved' : popped.rsp.toNat = cpu.rsp.toNat + 8 := by
      rw [moved]
      exact drop_rsp cpu (by omega)
    have holds' : Holds 8 popped.mem popped.rsp.toNat ((registers.map values ++ words).map (·.toNat)) := by
      rw [moved]
      exact holds_drop holds (by omega)
    obtain ⟨regs, ran, found, kept, depth⟩ := ih other holds' (by omega)
    refine ⟨regs, ran, ?_, ?_, by omega⟩
    · intro member inside
      rcases List.mem_cons.mp inside with rfl | inside
      · by_cases again : member ∈ registers
        · exact found member again
        · rw [kept member again (Ne.symm this), ← value]
          exact Function.update_self _ _ _
      · exact found member inside
    · intro member outside notRsp
      obtain ⟨different, outside⟩ := not_or.mp (mt List.mem_cons.mpr outside)
      rw [kept member outside notRsp]
      exact (Function.update_of_ne different _ _).trans (Function.update_of_ne notRsp _ _)

theorem iretq_loads {rip cs rflags rsp ss : BitVec 64} (room : cpu.rsp.toNat + 40 ≤ 2 ^ 64)
    (holds : Holds 8 cpu.mem cpu.rsp.toNat ([rip, cs, rflags, rsp, ss].map (·.toNat))) :
    cpu.step .iretq = { cpu.set .rsp rsp with rip, cs, rflags, ss } := by
  have depth := drop_rsp cpu (by omega)
  have depth' := drop_rsp cpu.drop (by omega)
  have depth'' := drop_rsp cpu.drop.drop (by omega)
  have holds1 := holds_drop holds (by omega)
  have holds2 := holds_drop holds1 (by omega)
  have holds3 := holds_drop holds2 (by omega)
  have holds4 := holds_drop holds3 (by omega)
  unfold Processor.step
  dsimp only
  rw [load_top holds, load_top holds1, load_top holds2, load_top holds3, load_top holds4]

end Popping

section Vectors

variable (program : Interrupted) (number : Fin 48) (handler code : BitVec 64)

/-- The words of a frame. -/
def frameWord (cpu : Processor) (intno err : BitVec 64) : FrameField → BitVec 64
  | .gpr register => cpu.regs register
  | .intno => intno
  | .err => err
  | .rip => cpu.rip
  | .cs => cpu.cs
  | .rflags => cpu.rflags
  | .ss => cpu.ss

theorem value_frameWord {field : FrameField} {value intno err : BitVec 64} (known : field.value cpu = some value) :
    frameWord cpu intno err field = value := by
  cases field with
  | gpr register => exact Option.some.inj known
  | intno => cases known
  | err => cases known
  | rip => exact Option.some.inj known
  | cs => exact Option.some.inj known
  | rflags => exact Option.some.inj known
  | ss => exact Option.some.inj known

theorem leave_pushed {low : Nat} (cpu : Processor) (rsp0 : BitVec 64) (room : low + 40 ≤ (rsp0 &&& ~~~0xf).toNat) :
    Pushed (cpu.leave rsp0) (rsp0 &&& ~~~0xf).toNat [cpu.rip, cpu.cs, cpu.rflags, cpu.rsp, cpu.ss] ∧
      ∀ register, register ≠ .rsp → (cpu.leave rsp0).regs register = cpu.regs register := by
  have started : Pushed (cpu.set .rsp (rsp0 &&& ~~~0xf)) (rsp0 &&& ~~~0xf).toNat [] :=
    ⟨congrArg BitVec.toNat (set_rsp _ _), trivial⟩
  obtain ⟨pushed1, only1⟩ := started.push cpu.ss (show low + 8 * 1 ≤ _ by omega)
  obtain ⟨pushed2, only2⟩ := pushed1.push cpu.rsp (show low + 8 * 2 ≤ _ by omega)
  obtain ⟨pushed3, only3⟩ := pushed2.push cpu.rflags (show low + 8 * 3 ≤ _ by omega)
  obtain ⟨pushed4, only4⟩ := pushed3.push cpu.cs (show low + 8 * 4 ≤ _ by omega)
  obtain ⟨pushed5, only5⟩ := pushed4.push cpu.rip (show low + 8 * 5 ≤ _ by omega)
  refine ⟨pushed5, fun register other => ?_⟩
  exact ((only1.trans (only2.trans (only3.trans (only4.trans only5)))).regs register other).trans
    (Function.update_of_ne other _ _)

/-- A vector with its error code, or with a zero in its place. -/
theorem interrupt_stub : ∃ err,
    Pushed ((program.cpu.interrupt program.rsp0 handler number code).run (interruptStub number))
      (program.rsp0 &&& ~~~0xf).toNat
        [BitVec.ofNat 64 number, err, program.cpu.rip, program.cpu.cs, program.cpu.rflags, program.cpu.rsp,
          program.cpu.ss] ∧
      ∀ register, register ≠ .rsp →
        ((program.cpu.interrupt program.rsp0 handler number code).run (interruptStub number)).regs register =
          program.cpu.regs register := by
  have room := program.tss
  obtain ⟨left, regs⟩ := @leave_pushed 0 program.cpu program.rsp0 (by omega)
  unfold Processor.interrupt interruptStub pushesError
  -- the stub pushes a zero where the processor pushes nothing
  by_cases error : (number : Nat) ∈ interruptErr
  · have error' : decide ((number : Nat) ∈ [8, 10, 11, 12, 13, 14, 17, 30]) = true := decide_eq_true error
    obtain ⟨pushed1, only1⟩ := left.push code (show 0 + 8 * 6 ≤ _ by omega)
    obtain ⟨pushed2, only2⟩ := (pushed1.entered handler 0x08 0).push (BitVec.ofNat 64 number)
      (show 0 + 8 * 7 ≤ _ by omega)
    rw [if_pos error, if_pos error']
    exact ⟨code, pushed2, fun register other => (only2.regs register other).trans
      ((only1.regs register other).trans (regs register other))⟩
  · have error' : ¬ decide ((number : Nat) ∈ [8, 10, 11, 12, 13, 14, 17, 30]) = true := by rwa [decide_eq_true_iff]
    obtain ⟨pushed1, only1⟩ := (left.entered handler 0x08 0).push 0 (show 0 + 8 * 6 ≤ _ by omega)
    obtain ⟨pushed2, only2⟩ := pushed1.push (BitVec.ofNat 64 number) (show 0 + 8 * 7 ≤ _ by omega)
    rw [if_neg error, if_neg error']
    exact ⟨0, pushed2, fun register other => (only2.regs register other).trans
      ((only1.regs register other).trans (regs register other))⟩

/-- At the call the frame holds a word for each field, and `rdi` points to it. -/
theorem vector_call : ∃ err,
    Pushed (EntryPath.call program (.vector number handler code)) (program.rsp0 &&& ~~~0xf).toNat
        (interruptStackframe.map (frameWord program.cpu (BitVec.ofNat 64 number) err)) ∧
      (EntryPath.call program (.vector number handler code)).regs .rdi =
      (EntryPath.call program (.vector number handler code)).rsp := by
  have room := program.tss
  obtain ⟨err, stub, regs⟩ := interrupt_stub program number handler code
  let before := (program.cpu.interrupt program.rsp0 handler number code).run (interruptStub number)
  have cleared : Pushed (before.step .cld) _ _ := ⟨stub.depth, stub.words⟩
  obtain ⟨pushed, -⟩ := cleared.all (show 0 + 8 * 22 ≤ _ by omega)
  have same : pushAll.reverse.map (before.step .cld).regs = pushAll.reverse.map program.cpu.regs := by
    apply List.map_congr_left
    intro register member
    apply regs
    rintro rfl
    revert member
    decide
  rw [same] at pushed
  have called : EntryPath.call program (.vector number handler code) =
      ((before.step .cld).run (pushAll.map .push)).step (.mov .rdi .rsp) := by
    have split : before.run interruptCommonEntry = ((before.step .cld).run (pushAll.map .push)).step
      (.mov .rdi .rsp) := by
      rw [interruptCommonEntry, run_append, run_append]
      rfl
    rw [← split]
    exact run_append _ _ _
  have words : interruptStackframe.map (frameWord program.cpu (BitVec.ofNat 64 number) err) =
      pushAll.reverse.map program.cpu.regs ++
        [BitVec.ofNat 64 number, err, program.cpu.rip, program.cpu.cs, program.cpu.rflags, program.cpu.rsp,
          program.cpu.ss] := rfl
  rw [called]
  generalize (before.step .cld).run (pushAll.map .push) = last at pushed
  refine ⟨err, ?_, (set_self last _ _).trans (set_other last (by decide) _).symm⟩
  rw [words]
  exact pushed.set (by decide) _

end Vectors

/-- The view that `rdi` points to has the register of the program in each field that is
for one, and the field lies in what was pushed. -/
def EntryPath.Agrees (path : EntryPath) (program : Interrupted) : Prop :=
  ∀ (field : FrameField) (value : BitVec 64), field.value (path.registers program) = some value →
    let frame := ((path.call program).regs .rdi).toNat
    (path.call program).mem.read (frame + field.offset) 8 = value.toNat ∧
      (path.call program).rsp.toNat ≤ frame + field.offset ∧ frame + field.offset + 8 ≤ (path.top program).toNat

/-- The C function came back to its caller and left the frame. It keeps the segment
bases and the word the stack pointer of a system call is saved in; an interrupt
handler returns the address it was given. -/
structure EntryPath.Left (path : EntryPath) (program : Interrupted) (after : Processor) : Prop where
  rsp : after.rsp = (path.call program).rsp
  frame : ∀ place, (path.call program).rsp.toNat ≤ place → place < (path.top program).toNat →
    after.mem place = (path.call program).mem place
  result : path.isVector → after.regs .rax = (path.call program).regs .rdi
  gs : ¬ path.isVector → after.gs = (path.call program).gs
  saved : ¬ path.isVector → after.load (after.gs + 8) = (path.call program).load ((path.call program).gs + 8)

/-- The program goes on with its registers, but for the result of a system call. -/
structure EntryPath.Resumes (path : EntryPath) (program : Interrupted) (after : Processor) : Prop where
  regs : ∀ register, (register = .rax → path.isVector) → (path.resume after).regs register =
    (path.registers program).regs register
  rip : (path.resume after).rip = (path.registers program).rip
  rflags : (path.resume after).rflags = (path.registers program).rflags

section Agreement

variable (program : Interrupted) (number : Fin 48) (handler code lstar : BitVec 64)

theorem mem_interruptStackframe (field : FrameField) : field ∈ interruptStackframe := by
  cases field with
  | gpr register => cases register <;> decide
  | intno => decide
  | err => decide
  | rip => decide
  | cs => decide
  | rflags => decide
  | ss => decide

theorem vector_agrees : EntryPath.Agrees (.vector number handler code) program := by
  intro field value known
  obtain ⟨err, pushed, pointer⟩ := vector_call program number handler code
  have inside := List.idxOf_lt_length_of_mem (mem_interruptStackframe field)
  have length : interruptStackframe.length = 22 := rfl
  have depth := pushed.depth
  rw [List.length_map, length] at depth
  have found : (interruptStackframe.map
    (frameWord program.cpu (BitVec.ofNat 64 number) err))[interruptStackframe.idxOf field]? = some value := by
    rw [List.getElem?_map, List.getElem?_eq_getElem inside, List.getElem_idxOf]
    exact congrArg some (value_frameWord known)
  have word : ((interruptStackframe.map (frameWord program.cpu (BitVec.ofNat 64 number) err)).map
      (·.toNat))[interruptStackframe.idxOf field]? = some value.toNat := by
    rw [List.getElem?_map, found]
    rfl
  dsimp only
  rw [pointer]
  refine ⟨pushed.words.get word, Nat.le_add_right _ _, ?_⟩
  rw [FrameField.offset, EntryPath.top, ← depth]
  omega

/-- What the C function left of the frame is still on the stack. -/
theorem left_holds {path : EntryPath} {program : Interrupted} {after : Processor} {words : List (BitVec 64)}
    (pushed : Pushed (path.call program) (path.top program).toNat words) (left : path.Left program after) :
    Holds 8 after.mem (path.call program).rsp.toNat (words.map (·.toNat)) := by
  apply pushed.words.congr
  intro place low high
  apply left.frame place low
  rw [List.length_map] at high
  rw [← pushed.depth]
  exact high

theorem vector_resumes {after : Processor} (left : EntryPath.Left (.vector number handler code) program after) :
    EntryPath.Resumes (.vector number handler code) program after := by
  obtain ⟨err, pushed, pointer⟩ := vector_call program number handler code
  have holds := left_holds pushed left
  have depth := pushed.depth
  have last := (program.rsp0 &&& ~~~0xf).isLt
  rw [List.length_map, show interruptStackframe.length = 22 from rfl] at depth
  -- the stack pointer is taken from what the handler returned
  let moved := after.step (.mov .rsp .rax)
  have place : moved.rsp = (EntryPath.call program (.vector number handler code)).rsp := by
    have returned := left.result rfl
    rw [← pointer, ← returned]
    exact set_rsp _ _
  have split : interruptStackframe.map (frameWord program.cpu (BitVec.ofNat 64 number) err) =
    popa.map program.cpu.regs ++
      [BitVec.ofNat 64 number, err, program.cpu.rip, program.cpu.cs, program.cpu.rflags, program.cpu.rsp,
        program.cpu.ss] := rfl
  rw [split, ← place] at holds
  rw [← place] at depth
  obtain ⟨regs, popped, found, -, rsp⟩ := @pops moved _ popa program.cpu.regs (by decide) holds
    (by rw [show popa.length = 15 from rfl]; omega)
  rw [show popa.length = 15 from rfl] at rsp
  let flat : Processor := { moved with regs }
  let bare := flat.step (.addImm .rsp 16)
  have skipped : bare.rsp.toNat = moved.rsp.toNat + 8 * 17 := by
    have sum : bare.rsp = regs .rsp + 16 := set_rsp _ _
    rw [sum, BitVec.toNat_add, rsp, show (16 : BitVec 64).toNat = 16 from rfl, Nat.mod_eq_of_lt (by omega)]
  have behind : Holds 8 bare.mem bare.rsp.toNat
      ([program.cpu.rip, program.cpu.cs, program.cpu.rflags, program.cpu.rsp, program.cpu.ss].map (·.toNat)) := by
    rw [skipped]
    have words : (popa.map program.cpu.regs ++
        [BitVec.ofNat 64 number, err, program.cpu.rip, program.cpu.cs, program.cpu.rflags, program.cpu.rsp,
          program.cpu.ss]).map (·.toNat) =
        (popa.map program.cpu.regs ++ [BitVec.ofNat 64 number, err]).map (·.toNat) ++
          [program.cpu.rip, program.cpu.cs, program.cpu.rflags, program.cpu.rsp, program.cpu.ss].map (·.toNat) := rfl
    rw [words] at holds
    exact holds.behind
  have returned := iretq_loads (by omega) behind
  have whole : EntryPath.resume after (.vector number handler code) = bare.step .iretq := by
    have run : after.run interruptCommonExit = ((moved.run (popa.map .pop)).step (.addImm .rsp 16)).step .iretq := by
      rw [interruptCommonExit, run_append, run_append]
      rfl
    exact run.trans (by rw [popped])
  rw [returned] at whole
  refine ⟨?_, by rw [whole]; rfl, by rw [whole]; rfl⟩
  intro register _
  rw [whole]
  by_cases stack : register = .rsp
  · rw [stack]
    exact set_self bare .rsp program.cpu.rsp
  · have member : register ∈ popa := by
      revert stack
      cases register <;> decide
    exact (set_other bare stack _).trans ((set_other flat stack _).trans (found register member))

end Agreement

section Syscalls

variable (program : Interrupted) (lstar : BitVec 64)

theorem load_congr {address : BitVec 64}
    (same : ∀ place, address.toNat ≤ place → place < address.toNat + 8 → after.mem place = cpu.mem place) :
    after.load address = cpu.load address :=
  congrArg (BitVec.ofNat 64) (Bytes.read_congr same)

theorem load_store (cpu : Processor) (address value : BitVec 64) : (cpu.store address value).load address = value := by
  unfold Processor.load Processor.store
  rw [Bytes.read_write, show 256 ^ 8 = 2 ^ 64 from rfl, Nat.mod_eq_of_lt value.isLt, BitVec.ofNat_toNat,
    BitVec.setWidth_eq]

/-- The word of the process that the stack pointer is saved in. -/
theorem saved_place : (program.cpu.kernelGs + 8).toNat = program.cpu.kernelGs.toNat + 8 := by
  have inside := program.process
  rw [BitVec.toNat_add, word_bytes, Nat.mod_eq_of_lt (by omega)]

/-- The first three instructions come to the stack of the process. -/
theorem syscall_stack : ∃ start, start = (program.cpu.syscall lstar).run [.swapgs, .movToGs 8 .rsp, .movGs .rsp 0] ∧
    start.rsp = program.cpu.load program.cpu.kernelGs ∧ start.gs = program.cpu.kernelGs ∧
      start.load (program.cpu.kernelGs + 8) = program.cpu.rsp ∧
        ∀ register, register ≠ .rsp → start.regs register =
          (EntryPath.registers program (.syscall lstar)).regs register := by
  let exchanged := (program.cpu.syscall lstar).step .swapgs
  let saved := exchanged.store (program.cpu.kernelGs + 8) program.cpu.rsp
  have stackPointer : exchanged.regs .rsp = program.cpu.rsp := by
    have kept := @set_other (program.cpu.set .rcx program.cpu.rip) .r11 .rsp (by decide) program.cpu.rflags
    have kept' := @set_other program.cpu .rcx .rsp (by decide) program.cpu.rip
    exact kept.trans kept'
  have stored : exchanged.step (.movToGs 8 .rsp) = saved := congrArg (exchanged.store _) stackPointer
  have word : saved.load (program.cpu.kernelGs + 0) = program.cpu.load program.cpu.kernelGs := by
    have first : program.cpu.kernelGs + 0 = program.cpu.kernelGs := BitVec.add_zero _
    rw [first]
    apply load_congr
    intro place low high
    apply Bytes.write_apart
    rw [saved_place]
    omega
  have run : (program.cpu.syscall lstar).run [.swapgs, .movToGs 8 .rsp, .movGs .rsp 0] =
    saved.set .rsp (saved.load (program.cpu.kernelGs + 0)) := by
    have steps : (program.cpu.syscall lstar).run [.swapgs, .movToGs 8 .rsp, .movGs .rsp 0] =
        (exchanged.step (.movToGs 8 .rsp)).step (.movGs .rsp 0) := rfl
    rw [steps, stored]
    rfl
  refine ⟨_, rfl, ?_, ?_, ?_, ?_⟩
  · rw [run, word]
    exact set_rsp _ _
  · rw [run]
    rfl
  · rw [run]
    exact load_store exchanged _ _
  · intro register other
    rw [run]
    exact set_other saved other _

/-- The entry code gets to the kernel stack, pushes what `iretq` would take, and saves
the registers. -/
theorem entry_parts : syscallHandleEntry = ([.swapgs, .movToGs 8 .rsp, .movGs .rsp 0] : List Instruction) ++
    (([.pushImm 0x1b, .pushGs 8, .push .r11, .pushImm 0x23, .push .rcx, .cld] : List Instruction) ++
      (pushAll.map .push ++ ([.mov .rdi .rsp, .movImm .rbp 0] : List Instruction))) := rfl

/-- The words of the frame of a system call: those for `intno` and `err` are missing,
so that the five behind them lie two fields too low. -/
theorem syscall_call :
    Pushed (EntryPath.call program (.syscall lstar)) (program.cpu.load program.cpu.kernelGs).toNat
        (pushAll.reverse.map (EntryPath.registers program (.syscall lstar)).regs ++
          [program.cpu.rip, 0x23, program.cpu.rflags, program.cpu.rsp, 0x1b]) ∧
      (EntryPath.call program (.syscall lstar)).regs .rdi = (EntryPath.call program (.syscall lstar)).rsp ∧
      (EntryPath.call program (.syscall lstar)).gs = program.cpu.kernelGs ∧
      (EntryPath.call program (.syscall lstar)).load (program.cpu.kernelGs + 8) = program.cpu.rsp := by
  have room := program.stack
  have process := program.process
  obtain ⟨start, run, rsp, gs, saved, regs⟩ := syscall_stack program lstar
  let low := (program.cpu.load program.cpu.kernelGs).toNat - 4096
  have low' : low + 4096 = (program.cpu.load program.cpu.kernelGs).toNat := Nat.sub_add_cancel room
  -- the saved stack pointer lies apart from the stack
  have cell {after : Processor} (only : OnlyPushed low (program.cpu.load program.cpu.kernelGs).toNat start after) :
      after.load (program.cpu.kernelGs + 8) = program.cpu.rsp := by
    rw [← saved]
    apply load_congr
    intro place below above
    apply only.mem
    rw [saved_place] at below above
    have apart := program.apart
    omega
  have started : Pushed start (program.cpu.load program.cpu.kernelGs).toNat [] := ⟨congrArg BitVec.toNat rsp, trivial⟩
  obtain ⟨pushed1, only1⟩ := started.push 0x1b (show low + 8 * 1 ≤ _ by omega)
  obtain ⟨pushed2, only2⟩ := pushed1.push program.cpu.rsp (show low + 8 * 2 ≤ _ by omega)
  obtain ⟨pushed3, only3⟩ := pushed2.push program.cpu.rflags (show low + 8 * 3 ≤ _ by omega)
  obtain ⟨pushed4, only4⟩ := pushed3.push 0x23 (show low + 8 * 4 ≤ _ by omega)
  obtain ⟨pushed5, only5⟩ := pushed4.push program.cpu.rip (show low + 8 * 5 ≤ _ by omega)
  have only := only1.trans (only2.trans (only3.trans (only4.trans only5)))
  let frame := ((((start.push 0x1b).push program.cpu.rsp).push program.cpu.rflags).push 0x23).push program.cpu.rip
  -- what is pushed by name is what the program left there
  have step2 : (start.push 0x1b).step (.pushGs 8) = (start.push 0x1b).push program.cpu.rsp := by
    have word : (start.push 0x1b).load ((start.push 0x1b).gs + 8) = program.cpu.rsp := by
      rw [only1.gs, gs]
      exact cell only1
    exact congrArg (start.push 0x1b).push word
  have flags : ((start.push 0x1b).push program.cpu.rsp).regs .r11 = program.cpu.rflags := by
    rw [(only1.trans only2).regs .r11 (by decide), regs .r11 (by decide)]
    exact set_self _ _ _
  have ip : ((((start.push 0x1b).push program.cpu.rsp).push program.cpu.rflags).push 0x23).regs .rcx =
    program.cpu.rip := by
    rw [(only1.trans (only2.trans (only3.trans only4))).regs .rcx (by decide), regs .rcx (by decide)]
    exact (set_other _ (by decide) _).trans (set_self program.cpu .rcx program.cpu.rip)
  have framed : start.run [.pushImm 0x1b, .pushGs 8, .push .r11, .pushImm 0x23, .push .rcx, .cld] =
    frame.step .cld := by
    have steps : start.run [.pushImm 0x1b, .pushGs 8, .push .r11, .pushImm 0x23, .push .rcx, .cld] =
        (((((start.push 0x1b).step (.pushGs 8)).step (.push .r11)).push 0x23).step (.push .rcx)).step .cld := rfl
    have step3 : ((start.push 0x1b).push program.cpu.rsp).step (.push .r11) =
      ((start.push 0x1b).push program.cpu.rsp).push program.cpu.rflags :=
      congrArg ((start.push 0x1b).push program.cpu.rsp).push flags
    have step5 : ((((start.push 0x1b).push program.cpu.rsp).push program.cpu.rflags).push 0x23).step
      (.push .rcx) = frame :=
      congrArg ((((start.push 0x1b).push program.cpu.rsp).push program.cpu.rflags).push 0x23).push ip
    rw [steps, step2, step3, step5]
  have cleared : Pushed (frame.step .cld) _ _ := ⟨pushed5.depth, pushed5.words⟩
  obtain ⟨pushed, only'⟩ := cleared.all (show low + 8 * 20 ≤ _ by omega)
  have same : pushAll.reverse.map (frame.step .cld).regs = pushAll.reverse.map
    (EntryPath.registers program (.syscall lstar)).regs := by
    apply List.map_congr_left
    intro register member
    have other : register ≠ .rsp := by
      rintro rfl
      revert member
      decide
    exact (only.regs register other).trans (regs register other)
  rw [same] at pushed
  have called : EntryPath.call program (.syscall lstar) =
      (((frame.step .cld).run (pushAll.map .push)).set .rdi
        ((frame.step .cld).run (pushAll.map .push)).rsp).set .rbp 0 := by
    rw [EntryPath.call, entry_parts, run_append, ← run, run_append, framed, run_append]
    rfl
  have across := only.trans ⟨only'.regs, only'.gs, only'.kernelGs, only'.mem⟩
  have gs' := across.gs
  have word := cell across
  rw [called]
  generalize (frame.step .cld).run (pushAll.map .push) = last at pushed gs' word
  have pointer : ((last.set .rdi last.rsp).set .rbp 0).regs .rdi = last.rsp :=
    (set_other _ (by decide) _).trans (set_self last .rdi last.rsp)
  have stack : ((last.set .rdi last.rsp).set .rbp 0).rsp = last.rsp :=
    (@set_other (last.set .rdi last.rsp) .rbp .rsp (by decide) 0).trans (@set_other last .rdi .rsp (by decide) last.rsp)
  exact ⟨(pushed.set (by decide) _).set (by decide) _, pointer.trans stack.symm, gs'.trans gs, word⟩

/-- The stack pointer and the selector of the stack lie outside the frame of a system call. -/
theorem syscall_disagrees : ¬ EntryPath.Agrees (.syscall lstar) program := by
  intro agrees
  obtain ⟨pushed, pointer, -⟩ := syscall_call program lstar
  obtain ⟨-, -, inside⟩ := agrees .ss _ rfl
  have depth := pushed.depth
  have words : (pushAll.reverse.map (EntryPath.registers program (.syscall lstar)).regs ++
      [program.cpu.rip, 0x23, program.cpu.rflags, program.cpu.rsp, 0x1b]).length = 20 := rfl
  have offset : FrameField.ss.offset = 168 := rfl
  have top : (EntryPath.top program (.syscall lstar)) = program.cpu.load program.cpu.kernelGs := rfl
  rw [pointer, offset, top] at inside
  rw [words] at depth
  omega

/-- What the C function finds in the fields behind the registers of a system call. -/
theorem syscall_fields :
    let frame := ((EntryPath.call program (.syscall lstar)).regs .rdi).toNat
    let mem := (EntryPath.call program (.syscall lstar)).mem
    mem.read (frame + FrameField.intno.offset) 8 = program.cpu.rip.toNat ∧
      mem.read (frame + FrameField.err.offset) 8 = 0x23 ∧
      mem.read (frame + FrameField.rip.offset) 8 = program.cpu.rflags.toNat ∧
        mem.read (frame + FrameField.cs.offset) 8 = program.cpu.rsp.toNat ∧
          mem.read (frame + FrameField.rflags.offset) 8 = 0x1b := by
  obtain ⟨pushed, pointer, -⟩ := syscall_call program lstar
  dsimp only
  rw [pointer]
  have word (index : Nat) {value : Nat} := @Holds.get 8 _ value _ _ pushed.words index
  exact ⟨word 15 rfl, word 16 rfl, word 17 rfl, word 18 rfl, word 19 rfl⟩

/-- A system call returns to the program with its registers all the same. -/
theorem syscall_resumes {after : Processor} (left : EntryPath.Left (.syscall lstar) program after)
    (flags : sysretFlags program.cpu.rflags = program.cpu.rflags) :
    EntryPath.Resumes (.syscall lstar) program after := by
  obtain ⟨pushed, -, gs, saved⟩ := syscall_call program lstar
  have holds := @left_holds (.syscall lstar) program after _ pushed left
  have depth := pushed.depth
  have last := (program.cpu.load program.cpu.kernelGs).isLt
  let values := (EntryPath.registers program (.syscall lstar)).regs
  rw [← left.rsp] at holds depth
  have split : pushAll.reverse.map values ++ [program.cpu.rip, 0x23, program.cpu.rflags, program.cpu.rsp, 0x1b] =
      popAll.map values ++ [values .rax, program.cpu.rip, 0x23, program.cpu.rflags, program.cpu.rsp, 0x1b] := rfl
  have words : (pushAll.reverse.map values ++ [program.cpu.rip, 0x23, program.cpu.rflags, program.cpu.rsp,
    0x1b]).length = 20 := rfl
  rw [words] at depth
  rw [split] at holds
  obtain ⟨regs, popped, found, -, -⟩ :=
    @pops after _ popAll values (by decide) holds (by rw [show popAll.length = 14 from rfl]; omega)
  let flat : Processor := { after with regs }
  have word : flat.load (flat.gs + 8) = program.cpu.rsp := by
    have kept : flat.load (flat.gs + 8) = after.load (after.gs + 8) := rfl
    rw [kept, left.saved Bool.false_ne_true, gs, saved]
  have whole : EntryPath.resume after (.syscall lstar) =
    ((flat.set .rsp program.cpu.rsp).step .swapgs).step .sysret := by
    have run : after.run syscallHandleExit =
      (((after.run (popAll.map .pop)).step (.movGs .rsp 8)).step .swapgs).step .sysret := by
      rw [syscallHandleExit, run_append]
      rfl
    have step : flat.step (.movGs .rsp 8) = flat.set .rsp program.cpu.rsp := congrArg (flat.set .rsp) word
    exact run.trans (by rw [popped, step])
  have restored (register : Gpr) (other : register ≠ .rax) : (flat.set .rsp program.cpu.rsp).regs register =
    values register := by
    by_cases stack : register = .rsp
    · rw [stack, set_self]
      exact ((set_other _ (by decide) _).trans (set_other program.cpu (by decide) _)).symm
    · have member : register ∈ popAll := by
        revert stack other
        cases register <;> decide
      exact (set_other flat stack _).trans (found register member)
  refine ⟨?_, ?_, ?_⟩
  · intro register result
    rw [whole]
    exact restored register fun same => Bool.false_ne_true (result same)
  · rw [whole]
    exact (restored .rcx (by decide)).trans
      ((set_other _ (by decide) _).trans (set_self program.cpu .rcx program.cpu.rip))
  · rw [whole]
    have word' : (flat.set .rsp program.cpu.rsp).regs .r11 = program.cpu.rflags :=
      (restored .r11 (by decide)).trans (set_self _ _ _)
    exact (congrArg sysretFlags word').trans flags

end Syscalls

/-- A way in through a vector keeps what the view promises and comes back; the way in
through `syscall` never does. -/
theorem entry_faithful_iff (program : Interrupted) (path : EntryPath) :
    (path.Agrees program ∧ ∀ after, path.Left program after → path.Resumes program after) ↔ path.isVector := by
  cases path with
  | syscall lstar =>
    constructor
    · intro faithful
      exact absurd faithful.1 (syscall_disagrees program lstar)
    · intro vector
      cases vector
  | vector number handler code =>
    constructor
    · intro
      rfl
    · intro
      exact ⟨vector_agrees program number handler code, fun after left =>
        vector_resumes program number handler code left⟩

theorem syscall_unfaithful : ¬ ∀ (program : Interrupted) (path : EntryPath),
    path.Agrees program ∧ ∀ after, path.Left program after → path.Resumes program after := by
  intro faithful
  let blank : Processor := ⟨fun _ => 0, 0x400000, 0x23, 0x202, 0x1b, 0, 0x10000, fun _ => 0⟩
  let cpu := blank.store 0x10000 0x20000
  have stack : cpu.load cpu.kernelGs = 0x20000 := load_store blank 0x10000 0x20000
  let program : Interrupted := ⟨cpu, 0x30000, by decide, by rw [stack]; decide, by decide, by rw [stack]; decide⟩
  exact syscall_disagrees program 0 (faithful program (.syscall 0)).1

end Navy
