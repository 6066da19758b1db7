import Navy.Machine

/-! What the boot loader hands to the kernel (`handover.h`). Each array is kept
as the list of its entries in use. -/

namespace Navy

structure MmapEntry where
  range : Range
  type : Nat
  isFree : Bool
deriving DecidableEq, Repr

def stivale2MmapUsable : Nat := 1
def stivale2MmapKernelAndModules : Nat := 0x1001

structure Framebuffer where
  addr : Nat
  height : Nat
  width : Nat
  pitch : Nat
deriving DecidableEq, Repr

structure HandoverModule where
  name : List (BitVec 8)
  addr : Range
deriving DecidableEq, Repr

structure Handover where
  memoryUsable : Nat
  usablePages : Nat
  rsdt : Nat
  framebuffer : Framebuffer
  mmap : List MmapEntry
  modules : List HandoverModule
deriving DecidableEq, Repr

end Navy
