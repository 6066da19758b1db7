import Navy.Mmu

/-! The translation cache of the processor. It holds translations of virtual
pages, read from the active tables at any time and dropped by `invlpg` only. -/

namespace Navy

abbrev Tlb := Nat → Translation → Prop

/-- The processor may have read translations of canonical pages, and evicted some. -/
def Fills (mem : Bytes) (root : Nat) (tlb after : Tlb) : Prop :=
  ∀ page translation, after page translation →
    tlb page translation ∨ Canonical (page * pageSize) ∧ walk mem root (page * pageSize) = some translation

def invlpg (tlb : Tlb) (address : Nat) : Tlb := fun page translation => page ≠ address / pageSize ∧ tlb page translation

/-- The addresses `vmm_flush` passes to `invlpg`, one for each round of its loop. -/
def vmmFlush (virtRange : Range) : List Nat :=
  (List.range (virtRange.length / pageSize)).map fun _ => wrap ((virtRange.base / pageSize + 1) * pageSize)

/-- Rounds of a loop over the tables, with the cache filling before and after each. -/
inductive TableLoop (root : Nat) (body : Vm → Nat → Checked Vm) : List Nat → Vm × Tlb → Vm × Tlb → Prop where
  | done {vm : Vm} {tlb filled : Tlb} (fills : Fills vm.mem root tlb filled) : TableLoop root body []
    (vm, tlb) (vm, filled)
  | turn {index : Nat} {rest : List Nat} {vm next : Vm} {tlb filled : Tlb} {after : Vm × Tlb}
      (fills : Fills vm.mem root tlb filled) (ran : body vm index = .ok next)
      (others : TableLoop root body rest (next, filled) after) : TableLoop root body (index :: rest) (vm, tlb) after

inductive FlushLoop (mem : Bytes) (root : Nat) : List Nat → Tlb → Tlb → Prop where
  | done {tlb filled : Tlb} (fills : Fills mem root tlb filled) : FlushLoop mem root [] tlb filled
  | turn {address : Nat} {rest : List Nat} {tlb filled after : Tlb} (fills : Fills mem root tlb filled)
      (others : FlushLoop mem root rest (invlpg filled address) after) : FlushLoop mem root (address :: rest) tlb after

/-- One round of `vmm_map_range`. -/
def mapTurn (pml : Nat) (virt phys : Range) (isUser : Bool) (vm : Vm) (i : Nat) : Checked Vm :=
  vmmMapPage vm pml (wrap (i * pageSize + alignDown virt.base pageSize))
    (wrap (i * pageSize + alignDown phys.base pageSize)) isUser

/-- One round of `vmm_unmap`. -/
def unmapTurn (pml : Nat) (range : Range) (vm : Vm) (i : Nat) : Checked Vm :=
  vmmUnmapPage vm pml (wrap (i * pageSize + alignDown range.base pageSize))

/-- `vmm_map_range` on the active space, from its call to its return. -/
structure MapCall (root : Nat) (virt phys : Range) (isUser : Bool) (before after : Vm × Tlb) : Prop where
  lengths : phys.length = virt.length
  loop : ∃ tlb, TableLoop root (mapTurn (mmapPhysToIo root) virt phys isUser) (List.range (virt.length / pageSize))
    before (after.1, tlb) ∧ FlushLoop after.1.mem root (vmmFlush virt) tlb after.2

/-- `vmm_unmap` on the active space; it flushes nothing. -/
structure UnmapCall (root : Nat) (range : Range) (before after : Vm × Tlb) : Prop where
  loop : TableLoop root (unmapTurn (mmapPhysToIo root) range) (List.range (range.length / pageSize)) before after

theorem TableLoop.ran {root : Nat} {body : Vm → Nat → Checked Vm} {turns : List Nat} {before after : Vm × Tlb}
    (loop : TableLoop root body turns before after) : turns.foldlM body before.1 = .ok after.1 := by
  induction loop with
  | done fills => rfl
  | turn fills ran others ih =>
    rw [List.foldlM_cons, ran]
    exact ih

theorem MapCall.ran {root : Nat} {virt phys : Range} {isUser : Bool} {before after : Vm × Tlb}
    (call : MapCall root virt phys isUser before after) :
    vmmMapRange before.1 (mmapPhysToIo root) virt phys isUser = .ok after.1 := by
  obtain ⟨lengths, tlb, loop, -⟩ := call
  unfold vmmMapRange
  rw [check_true _ lengths, Outcome.ok_bind]
  exact loop.ran

theorem UnmapCall.ran {root : Nat} {range : Range} {before after : Vm × Tlb}
    (call : UnmapCall root range before after) :
    vmmUnmap before.1 (mmapPhysToIo root) range = .ok after.1 := call.loop.ran

end Navy
