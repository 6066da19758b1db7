import Navy.Preempt
import Navy.Mmu

/-! The dispatch of system calls, and the calls the C library makes. An `ipc_t`
at `rbx` is passed as its content; the string of `syscall_log` is read where
`rbx` points, in the space of the caller. -/

namespace Navy

/-- The `SYS_*` enumeration of `unistd.h`. -/
inductive Sys where
  | ipcSend
  | ipcRcvSync
  | ipcRcvOneshot
  | log
  | alloc
  | free
  | realloc
  | exit
  | getpid
deriving DecidableEq, Repr

def Sys.number : Sys → Nat
  | .ipcSend => 0
  | .ipcRcvSync => 1
  | .ipcRcvOneshot => 2
  | .log => 3
  | .alloc => 4
  | .free => 5
  | .realloc => 6
  | .exit => 7
  | .getpid => 8

inductive Handler where
  | syscallIpcsend
  | syscallIpcrcvSync
  | syscallIpcrcvOneshot
  | syscallLog
  | syscallExit
  | syscallGetpid
deriving DecidableEq, Repr

/-- The designated initialisers of `syscall_matrix`. -/
def syscallDesignators : List (Sys × Handler) :=
  [(.ipcSend, .syscallIpcsend), (.ipcRcvSync, .syscallIpcrcvSync), (.ipcRcvOneshot, .syscallIpcrcvOneshot),
    (.log, .syscallLog), (.exit, .syscallExit), (.getpid, .syscallGetpid)]

/-- An array as long as its last designator asks for; what no designator names is `NULL`. -/
def syscallMatrix : List (Option Handler) :=
  (List.range (Sys.getpid.number + 1)).map fun index =>
    (syscallDesignators.find? fun designator => designator.1.number == index).map Prod.snd

/-- What a call leaves: the value it returns, `none` while it does not return,
the caller's `ipc_t` and the scheduler. -/
structure Answered where
  value : Option Nat
  msg : Ipc
  sched : Sched

/-- `serial_puts`, with what it puts out. The fuel counts the bytes of the address
space, which has holes, so that no string is as long. -/
def serialPuts (mem : Bytes) (root : Nat) : Nat → Nat → Checked (List (BitVec 8))
  | 0, _ => .error .noReturn
  | fuel + 1, s =>
    match kernelByte mem root s with
    -- a page fault in the kernel, with the lock of `arch_serial_puts` taken
    | none => .error .outOfBounds
    | some byte =>
      if byte = 0 then return []
      else do
        let rest ← serialPuts mem root fuel (s + 1)
        return byte :: rest

/-- The pointer is not checked. -/
def syscallLog (mem : Bytes) (sched : Sched) (rbx : Nat) : Checked (List (BitVec 8)) :=
  serialPuts mem sched.cr3 (2 ^ 64) rbx

/-- `mem` is the physical memory at the call, `msg` the `ipc_t` at `rbx` and `answer`
what growing a mailbox gives. -/
def Handler.call (handler : Handler) (mem : Bytes) (sched : Sched) (regs : Registers) (msg : Ipc)
    (answer : Option Nat) : Checked Answered :=
  match handler with
  | .syscallIpcsend => do
    let (msg, sched) ← Navy.syscallIpcsend sched msg answer
    return ⟨some 0, msg, sched⟩
  | .syscallIpcrcvSync => do
    let (got, sched) ← Navy.syscallIpcrcvSync sched
    return ⟨got.map fun _ => 0, got.getD msg, sched⟩
  | .syscallIpcrcvOneshot => do
    let (got, sched) ← Navy.syscallIpcrcvOneshot sched
    return ⟨some 0, got.getD msg, sched⟩
  | .syscallLog => do
    let _ ← Navy.syscallLog mem sched regs.rbx
    return ⟨some 0, msg, sched⟩
  | .syscallExit => do
    let sched ← Navy.syscallExit sched regs.rbx
    return ⟨none, msg, sched⟩
  | .syscallGetpid => do
    let pid ← Navy.syscallGetpid sched
    return ⟨some pid, msg, sched⟩

/-- The index is not checked: past the end or at a `NULL` entry the kernel calls
no function of its own. -/
def syscallHandler (mem : Bytes) (sched : Sched) (regs : Registers) (msg : Ipc) (answer : Option Nat) :
    Checked Answered :=
  match syscallMatrix[regs.rax]? with
  | some (some handler) => handler.call mem sched regs msg answer
  | _ => .error .outOfBounds

/-- `syscall5`: the registers the instruction is reached with. -/
def syscall5 (regs : Registers) (syscallId : Sys) (arg1 arg2 arg3 arg4 : Nat) : Registers :=
  { regs with rax := syscallId.number, rbx := arg1, rdx := arg2, rsi := arg3, rdi := arg4 }

/-- The functions of the C library that make a system call. -/
inductive LibcCall where
  | malloc (size : Nat)
  | free (ptr : Nat)
  | realloc (ptr size : Nat)
  | exit (status : Nat)
  | getpid
  | sysLog (s : Nat)
  | ipcSend (ipc : Nat)
  | ipcRcvSync (ipc : Nat)
  | ipcRcvOneshot (ipc : Nat)

def LibcCall.enter (regs : Registers) : LibcCall → Registers
  | .malloc size => syscall5 regs .alloc size 0 0 0
  | .free ptr => syscall5 regs .free ptr 0 0 0
  | .realloc ptr size => syscall5 regs .realloc ptr size 0 0
  | .exit status => syscall5 regs .exit status 0 0 0
  | .getpid => syscall5 regs .getpid 0 0 0 0
  | .sysLog s => syscall5 regs .log s 0 0 0
  | .ipcSend ipc => syscall5 regs .ipcSend ipc 0 0 0
  | .ipcRcvSync ipc => syscall5 regs .ipcRcvSync ipc 0 0 0
  | .ipcRcvOneshot ipc => syscall5 regs .ipcRcvOneshot ipc 0 0 0

end Navy
