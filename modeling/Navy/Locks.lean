import Navy.Library.LockSections

/-! The spinlocks of the kernel and the locking structure of everything that
takes them. A section is what stands between `arch_acquire` and `arch_release`. -/

namespace Navy

open LockSections

/-- The static `lock` words, by the file they stand in, and `usertask_lock`. -/
inductive KernelLock where
  | pmm
  | vmm
  | liballoc
  | usertask
  | sched
  | elf
  | arch
deriving DecidableEq

namespace Sections

def serialPuts : Sect KernelLock := .locked .arch .plain

/-- `log` prints its text piece by piece and then a line end. -/
def log : Sect KernelLock := .seq (.many serialPuts) serialPuts

def pmmAlloc : Sect KernelLock := .locked .pmm .plain

def pmmFree : Sect KernelLock := .locked .pmm .plain

def vmmGetPmlAlloc : Sect KernelLock := .alt .plain (.seq pmmAlloc .plain)

def vmmMapPage : Sect KernelLock := .seq vmmGetPmlAlloc (.seq vmmGetPmlAlloc (.seq vmmGetPmlAlloc .plain))

def vmmMapRange : Sect KernelLock := .seq (.locked .vmm (.many vmmMapPage)) .plain

def vmmUnmap : Sect KernelLock := .locked .vmm .plain

def vmmSpaceCreate : Sect KernelLock := .locked .vmm (.seq pmmAlloc .plain)

def vmmSpaceDestroy : Sect KernelLock := .seq .plain pmmFree

def liballocAlloc : Sect KernelLock := .seq pmmAlloc vmmMapRange

def liballocFree_ : Sect KernelLock := pmmFree

/-- The second form is the one for a size that wraps to 0. -/
def liballocMalloc : Sect KernelLock :=
  .alt (.locked .liballoc (.many (.seq .plain (.alt liballocAlloc .plain))))
    (.seq (.locked .liballoc .plain) (.locked .liballoc (.many (.seq .plain (.alt liballocAlloc .plain)))))

def liballocFree : Sect KernelLock := .alt .plain (.locked .liballoc (.seq .plain (.alt liballocFree_ .plain)))

def liballocRealloc : Sect KernelLock :=
  .alt liballocFree (.alt liballocMalloc
    (.seq (.locked .liballoc .plain) (.alt .plain (.seq liballocMalloc (.seq .plain liballocFree)))))

def kmalloc : Sect KernelLock := liballocMalloc

def kcalloc : Sect KernelLock := .seq liballocMalloc .plain

def krealloc : Sect KernelLock := liballocRealloc

def kfree : Sect KernelLock := liballocFree

def vecPush : Sect KernelLock := .seq (.alt krealloc .plain) .plain

def taskInit : Sect KernelLock :=
  .locked .usertask (.seq kcalloc (.seq .plain (.seq kmalloc (.seq pmmAlloc (.seq .plain (.seq vmmMapRange .plain))))))

def schedPushProcess5 : Sect KernelLock := .locked .usertask (.seq .plain vecPush)

def loadSegment : Sect KernelLock := .seq log (.seq pmmAlloc (.seq vmmMapRange .plain))

def loadElfModule : Sect KernelLock :=
  .seq (.locked .elf (.seq log (.seq vmmSpaceCreate (.seq (.many (.alt loadSegment .plain)) log)))) taskInit

/-- One round of `task_slayer` on a process that is waiting for its death. -/
def reap : Sect KernelLock := .seq kfree (.seq pmmFree (.seq vmmSpaceDestroy kfree))

def yieldTask : Sect KernelLock := .locked .sched .plain

/-- What a task runs: user code and lock-taking operations in any order. -/
def task : Sect KernelLock :=
  .many (.alt .plain (.alt serialPuts (.alt log (.alt pmmAlloc (.alt pmmFree (.alt vmmMapRange (.alt vmmUnmap
    (.alt vmmSpaceCreate (.alt kmalloc (.alt krealloc (.alt kfree (.alt vecPush (.alt taskInit (.alt schedPushProcess5
      (.alt loadElfModule reap)))))))))))))))

end Sections

end Navy
