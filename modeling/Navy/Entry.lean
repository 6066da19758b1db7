import Navy.Machine

/-! The ways into the kernel and back: `syscall_handle` (`syscall.s`) and
`__interrupt_common` with the stubs in front of it (`idt.s`), in front of the call
of the C function and behind it. -/

namespace Navy

inductive Gpr where
  | rax | rbx | rcx | rdx | rsi | rdi | rbp | rsp | r8 | r9 | r10 | r11 | r12 | r13 | r14 | r15
deriving DecidableEq, Repr

/-- `gs` is the base of the segment, `kernelGs` the one `swapgs` exchanges it for. -/
structure Processor where
  regs : Gpr → BitVec 64
  rip : BitVec 64
  cs : BitVec 64
  rflags : BitVec 64
  ss : BitVec 64
  gs : BitVec 64
  kernelGs : BitVec 64
  mem : Bytes

namespace Processor

def rsp (cpu : Processor) : BitVec 64 := cpu.regs .rsp

def set (cpu : Processor) (target : Gpr) (value : BitVec 64) : Processor :=
  { cpu with regs := Function.update cpu.regs target value }

def load (cpu : Processor) (address : BitVec 64) : BitVec 64 := BitVec.ofNat 64 (cpu.mem.read address.toNat 8)

def store (cpu : Processor) (address value : BitVec 64) : Processor :=
  { cpu with mem := cpu.mem.write address.toNat 8 value.toNat }

def push (cpu : Processor) (value : BitVec 64) : Processor := (cpu.set .rsp (cpu.rsp - 8)).store (cpu.rsp - 8) value

/-- The word on top of the stack is taken off. -/
def drop (cpu : Processor) : Processor := cpu.set .rsp (cpu.rsp + 8)

end Processor

inductive Instruction where
  | push (source : Gpr)
  | pushImm (value : BitVec 64)
  | pushGs (offset : BitVec 64)
  | pop (target : Gpr)
  | mov (target source : Gpr)
  | movImm (target : Gpr) (value : BitVec 64)
  | movGs (target : Gpr) (offset : BitVec 64)
  | movToGs (offset : BitVec 64) (source : Gpr)
  | addImm (target : Gpr) (value : BitVec 64)
  | cld
  | swapgs
  | sysret
  | iretq

/-- What `sysret` takes over from `r11`. -/
def sysretFlags (flags : BitVec 64) : BitVec 64 := (flags &&& 0x3c7fd7) ||| 2

def Processor.step (cpu : Processor) : Instruction → Processor
  | .push source => cpu.push (cpu.regs source)
  | .pushImm value => cpu.push value
  | .pushGs offset => cpu.push (cpu.load (cpu.gs + offset))
  | .pop target => cpu.drop.set target (cpu.load cpu.rsp)
  | .mov target source => cpu.set target (cpu.regs source)
  | .movImm target value => cpu.set target value
  | .movGs target offset => cpu.set target (cpu.load (cpu.gs + offset))
  | .movToGs offset source => cpu.store (cpu.gs + offset) (cpu.regs source)
  | .addImm target value => cpu.set target (cpu.regs target + value)
  | .cld => { cpu with rflags := cpu.rflags &&& ~~~0x400 }
  | .swapgs => { cpu with gs := cpu.kernelGs, kernelGs := cpu.gs }
  -- the selectors come from `MSR_STAR`
  | .sysret => { cpu with rip := cpu.regs .rcx, cs := 0x23, rflags := sysretFlags (cpu.regs .r11), ss := 0x1b }
  | .iretq =>
    let rip := cpu
    let cs := rip.drop
    let rflags := cs.drop
    let rsp := rflags.drop
    let ss := rsp.drop
    { cpu.set .rsp (rsp.load rsp.rsp) with
      rip := rip.load rip.rsp, cs := cs.load cs.rsp, rflags := rflags.load rflags.rsp, ss := ss.load ss.rsp }

def Processor.run (cpu : Processor) (code : List Instruction) : Processor := code.foldl Processor.step cpu

/-- `push_all` and `__pusha`. -/
def pushAll : List Gpr := [.rax, .rbx, .rcx, .rdx, .rsi, .rdi, .rbp, .r8, .r9, .r10, .r11, .r12, .r13, .r14, .r15]

/-- `pop_all`, which leaves `rax` on the stack. -/
def popAll : List Gpr := [.r15, .r14, .r13, .r12, .r11, .r10, .r9, .r8, .rbp, .rdi, .rsi, .rdx, .rcx, .rbx]

/-- `__popa`. -/
def popa : List Gpr := [.r15, .r14, .r13, .r12, .r11, .r10, .r9, .r8, .rbp, .rdi, .rsi, .rdx, .rcx, .rbx, .rax]

/-- `syscall_handle` up to the call. -/
def syscallHandleEntry : List Instruction :=
  [.swapgs, .movToGs 8 .rsp, .movGs .rsp 0, .pushImm 0x1b, .pushGs 8, .push .r11, .pushImm 0x23, .push .rcx, .cld] ++
    pushAll.map .push ++ [.mov .rdi .rsp, .movImm .rbp 0]

def syscallHandleExit : List Instruction := popAll.map .pop ++ [.movGs .rsp 8, .swapgs, .sysret]

/-- The vectors with an `INTERRUPT_ERR` stub. -/
def interruptErr : List Nat := [8, 10, 11, 12, 13, 14, 17, 30]

def interruptStub (vector : Nat) : List Instruction :=
  if vector ∈ interruptErr then [.pushImm (BitVec.ofNat 64 vector)] else [.pushImm 0, .pushImm (BitVec.ofNat 64 vector)]

/-- `__interrupt_common` up to the call. -/
def interruptCommonEntry : List Instruction := [.cld] ++ pushAll.map .push ++ [.mov .rdi .rsp]

def interruptCommonExit : List Instruction := [.mov .rsp .rax] ++ popa.map .pop ++ [.addImm .rsp 16, .iretq]

/-- The exceptions the processor pushes an error code for. Vectors 21 and 29 belong to
extensions that stay switched off. -/
def pushesError (vector : Nat) : Bool := vector ∈ [8, 10, 11, 12, 13, 14, 17, 30]

/-- What the processor does at `syscall`, whose mask of flags is empty. -/
def Processor.syscall (cpu : Processor) (lstar : BitVec 64) : Processor :=
  { (cpu.set .rcx cpu.rip).set .r11 cpu.rflags with rip := lstar, cs := 0x08, ss := 0x10 }

/-- The words every interrupt from user mode leaves on the stack of the TSS. -/
def Processor.leave (cpu : Processor) (rsp0 : BitVec 64) : Processor :=
  let stack := cpu.set .rsp (rsp0 &&& ~~~0xf)
  ((((stack.push cpu.ss).push cpu.rsp).push cpu.rflags).push cpu.cs).push cpu.rip

def Processor.interrupt (cpu : Processor) (rsp0 handler : BitVec 64) (vector : Nat) (code : BitVec 64) : Processor :=
  { (if pushesError vector then (cpu.leave rsp0).push code else cpu.leave rsp0) with rip := handler, cs := 0x08, ss := 0 }

/-- The fields of `struct interrupt_stackframe`. -/
inductive FrameField where
  | gpr (register : Gpr)
  | intno
  | err
  | rip
  | cs
  | rflags
  | ss
deriving DecidableEq, Repr

/-- They are packed in this order. -/
def interruptStackframe : List FrameField :=
  [.gpr .r15, .gpr .r14, .gpr .r13, .gpr .r12, .gpr .r11, .gpr .r10, .gpr .r9, .gpr .r8, .gpr .rbp,
    .gpr .rdi, .gpr .rsi, .gpr .rdx, .gpr .rcx, .gpr .rbx, .gpr .rax, .intno, .err, .rip, .cs, .rflags, .gpr .rsp, .ss]

def FrameField.offset (field : FrameField) : Nat := 8 * interruptStackframe.idxOf field

/-- The register a field is for; two fields are for none. -/
def FrameField.value (cpu : Processor) : FrameField → Option (BitVec 64)
  | .gpr register => some (cpu.regs register)
  | .intno => none
  | .err => none
  | .rip => some cpu.rip
  | .cs => some cpu.cs
  | .rflags => some cpu.rflags
  | .ss => some cpu.ss

/-- A user program where it leaves for the kernel, with the stacks the kernel has for
the two ways in: one in the TSS, one in the first word of the process. -/
structure Interrupted where
  cpu : Processor
  rsp0 : BitVec 64
  tss : 4096 ≤ (rsp0 &&& ~~~0xf).toNat
  stack : 4096 ≤ (cpu.load cpu.kernelGs).toNat
  process : cpu.kernelGs.toNat + 16 ≤ 2 ^ 64
  apart : cpu.kernelGs.toNat + 16 ≤ (cpu.load cpu.kernelGs).toNat - 4096 ∨ (cpu.load cpu.kernelGs).toNat ≤
    cpu.kernelGs.toNat

/-- The address in `MSR_LSTAR`, or a vector of the table with the address in its gate
and the error code of the exception. -/
inductive EntryPath where
  | syscall (lstar : BitVec 64)
  | vector (number : Fin 48) (handler code : BitVec 64)

/-- The state at the call of the C function. -/
def EntryPath.call (program : Interrupted) : EntryPath → Processor
  | .syscall lstar => (program.cpu.syscall lstar).run syscallHandleEntry
  | .vector number handler code =>
    (program.cpu.interrupt program.rsp0 handler number code).run (interruptStub number ++ interruptCommonEntry)

/-- The state from which the program goes on, if the C function came back in `after`. -/
def EntryPath.resume (after : Processor) : EntryPath → Processor
  | .syscall _ => after.run syscallHandleExit
  | .vector _ _ _ => after.run interruptCommonExit

/-- Where the frame begins that is pushed. -/
def EntryPath.top (program : Interrupted) : EntryPath → BitVec 64
  | .syscall _ => program.cpu.load program.cpu.kernelGs
  | .vector _ _ _ => program.rsp0 &&& ~~~0xf

/-- The registers of the program; `syscall` has put two of them into two others. -/
def EntryPath.registers (program : Interrupted) : EntryPath → Processor
  | .syscall _ => (program.cpu.set .rcx program.cpu.rip).set .r11 program.cpu.rflags
  | .vector _ _ _ => program.cpu

def EntryPath.isVector : EntryPath → Bool
  | .syscall _ => false
  | .vector _ _ _ => true

end Navy
