import Navy.Proofs.BootMap

/-! The page hooks of the heap against each other: what `liballoc_free_` gives back
of what `liballoc_alloc` took. -/

namespace Navy
open Outcome Paging Pmm

variable {kernel grown after : Kernel} {pointer size page : Nat}

/-- The frame a heap pointer points into. -/
def frameOf (pointer : Nat) : Nat := mmapIoToPhys pointer / pageSize

/-- A block begins with a frame that was free and is taken now. -/
theorem liballocAlloc_frame (sized : kernel.vm.pmm.Sized) (ran : liballocAlloc kernel size = .ok (pointer, grown)) :
    frameOf pointer < kernel.vm.pmm.bitmapSize ∧ pointer = mmapPhysToIo (frameOf pointer * pageSize) ∧
      isSetPmm kernel.vm.pmm (frameOf pointer) = false ∧ isSetPmm grown.vm.pmm (frameOf pointer) = true := by
  have small := sized.small
  obtain ⟨space, -, ran⟩ := bind_ok ran
  obtain ⟨⟨range, vm⟩, allocated, ran⟩ := bind_ok ran
  obtain ⟨⟨⟩, positive, ran⟩ := bind_ok ran
  obtain ⟨mapped, mapping, rest⟩ := bind_ok ran
  obtain ⟨rfl, rfl⟩ := Prod.mk.inj (Except.ok.inj rest)
  have some := check_ok positive
  obtain ⟨tables, entered⟩ := vmmMapRange_enters mapping
  have accounts := entered.accounts _ _ sized ((alloc_entered allocated).accounts _ _ sized (.start kernel.vm.pmm))
  have member : range ∈ tables.map Prod.snd ++ ([(Owner.heap, range)].map Prod.snd ++ []) := by simp
  obtain ⟨aligned, whole⟩ := accounts.aligned range member
  have bound := accounts.bound range member
  have frame : frameOf (mmapPhysToIo range.base) = range.base / 4096 := by
    rw [frameOf, phys_io _ (by omega), pageSize]
  have here : range.base / 4096 ∈ range.pages := Range.mem_pages.mpr (by omega)
  dsimp only
  rw [frame, isSetPmm_eq, isSetPmm_eq]
  refine ⟨by omega, ?_, accounts.fresh range member _ here, (accounts.bits _).mpr (.inr ⟨range, member, here⟩)⟩
  congr 1
  simp only [pageSize]
  omega

/-- The pages counted off a pointer are not the frames behind it. -/
theorem liballocFree_frame (behind : pointer = mmapPhysToIo (frameOf pointer * pageSize))
    (bounded : size * pageSize < 2 ^ 31) (ran : liballocFree grown pointer size = .ok after)
    (taken : isSetPmm grown.vm.pmm (frameOf pointer) = true) : isSetPmm after.vm.pmm (frameOf pointer) = true := by
  generalize frameOf pointer = frame at behind taken ⊢
  obtain ⟨pmm, freed, rest⟩ := bind_ok ran
  obtain rfl := Except.ok.inj rest
  have step (state : Pmm) (index : Nat) (next : Pmm) (member : index ∈ List.range (size / pageSize))
      (kept : isSetPmm state frame = true) (turn : bitmapUnused state (wrap (pointer / pageSize + index)) = .ok next) :
      isSetPmm next frame = true := by
    obtain ⟨⟨⟩, -, rest⟩ := bind_ok turn
    obtain rfl := Except.ok.inj rest
    have inside := List.mem_range.mp member
    have apart : frame ≠ wrap (pointer / pageSize + index) := by
      rw [behind]
      unfold mmapPhysToIo
      simp only [wrap, mmapIoBase, pageSize] at bounded inside ⊢
      omega
    rw [isSetPmm_eq] at kept ⊢
    have bit := Bytes.bit_clearBit state.bitmap (wrap (pointer / pageSize + index)) frame
    rw [decide_eq_false apart, kept] at bit
    exact bit
  exact foldlM_keeps step taken freed

/-- Fewer than 4096 pages are no page at all. -/
theorem liballocFree_small (kernel : Kernel) (pointer : Nat) (few : size < pageSize) :
    liballocFree kernel pointer size = .ok kernel := by
  unfold liballocFree pmmFree pmmRangeUnused pmmRange
  dsimp only
  rw [Nat.div_eq_of_lt few]
  rfl

/-- No block ever comes back: whatever `liballoc_free_` does, the first frame of
the block stays taken. -/
theorem heap_hooks_leak (sized : kernel.vm.pmm.Sized) (bounded : size * pageSize < 2 ^ 31)
    (allocated : liballocAlloc kernel size = .ok (pointer, grown)) :
    ¬ ∃ after, liballocFree grown pointer size = .ok after ∧
      (∀ page, isSetPmm after.vm.pmm page = isSetPmm kernel.vm.pmm page) ∧
      after.vm.pmm.usablePages = kernel.vm.pmm.usablePages := by
  intro undone
  obtain ⟨after, freed, bits, -⟩ := undone
  obtain ⟨-, behind, free, taken⟩ := liballocAlloc_frame sized allocated
  have left := liballocFree_frame behind bounded freed taken
  rw [bits, free] at left
  cases left

/-- The gigabyte machine after boot, and a first page for the heap: the direct map
has it already, so no page table is made. -/
theorem gigabyte_block : ∃ vm range grown, vm.pmm.Sized ∧
    liballocAlloc ⟨.zero, vm⟩ 1 = .ok (mmapPhysToIo range.base, grown) ∧ grown.vm.owners =
      (.heap, range) :: vm.owners := by
  obtain ⟨pmm, vm, placed, sized, booted, supply⟩ := gigabyte_vm fun _ => 0
  have addressable : ∀ mmap ∈ [gigabyteEntry], Addressable mmap := by simp [Addressable, gigabyteEntry]
  have fits : gigabyte.Fits := by constructor <;> simp [gigabyte]
  obtain ⟨root, direct⟩ := vmmInit_direct sized addressable booted
  have ledger := vmmInit_ledger (pmmInit_bound fits placed) booted
  obtain ⟨range, given, allocated, length, -⟩ := (show Supply vm.pmm (1 + 23999) from supply).alloc .heap
    (show 0 < 1 * pageSize by decide) (by decide) (by decide)
  obtain ⟨aligned, -, -, -⟩ := alloc_length direct.spaces.sized allocated (by omega)
  obtain ⟨spaces, grows, same, fresh⟩ := direct.spaces.allocated allocated
  have inside := (fresh (range.base / 4096) (Range.mem_pages.mpr (by omega))).1.1
  have size : vm.pmm.bitmapSize = 32768 := by
    obtain ⟨last, found, bytes⟩ := pmmInit_size placed
    obtain rfl := Option.some.inj found
    rw [ledger.accounts.size, bytes]
    rfl
  obtain ⟨mem, mapped⟩ := direct.again true spaces same aligned length (by omega) (.inl (by omega))
  refine ⟨vm, range, ⟨.zero, { given with mem }⟩, direct.spaces.sized, ?_, (alloc_entered allocated).owners⟩
  have positive : 0 < range.length := by omega
  unfold liballocAlloc heapSpace
  rw [if_neg (by simp [Sched.zero])]
  change (Vm.alloc vm .heap (1 * pageSize) >>= _) = _
  rw [allocated, ok_bind]
  dsimp only
  rw [check_true _ positive, ok_bind, mapped]
  rfl

theorem heap_hooks_leak_gigabyte : ∃ kernel pointer grown, liballocAlloc kernel 1 = .ok (pointer, grown) ∧
    ¬ ∃ after, liballocFree grown pointer 1 = .ok after ∧
      (∀ page, isSetPmm after.vm.pmm page = isSetPmm kernel.vm.pmm page) ∧
      after.vm.pmm.usablePages = kernel.vm.pmm.usablePages := by
  obtain ⟨vm, range, grown, sized, allocated, -⟩ := gigabyte_block
  exact ⟨⟨.zero, vm⟩, _, grown, allocated, heap_hooks_leak sized (by simp [pageSize]) allocated⟩

/-- One page taken and given back at once: the call returns, and the page is still taken. -/
theorem heap_page_lost : ∃ kernel range grown after, liballocAlloc kernel 1 = .ok (mmapPhysToIo range.base, grown) ∧
    grown.vm.owners = (.heap, range) :: kernel.vm.owners ∧
    liballocFree grown (mmapPhysToIo range.base) 1 = .ok after ∧
    isSetPmm kernel.vm.pmm (frameOf (mmapPhysToIo range.base)) = false ∧
    isSetPmm after.vm.pmm (frameOf (mmapPhysToIo range.base)) = true := by
  obtain ⟨vm, range, grown, sized, allocated, owners⟩ := gigabyte_block
  obtain ⟨-, behind, free, taken⟩ := @liballocAlloc_frame ⟨.zero, vm⟩ grown _ 1 sized allocated
  have freed := liballocFree_small grown (mmapPhysToIo range.base) (show 1 < pageSize by decide)
  exact ⟨⟨.zero, vm⟩, range, grown, grown, allocated, owners, freed, free, liballocFree_frame behind
    (by simp [pageSize]) freed taken⟩

end Navy
