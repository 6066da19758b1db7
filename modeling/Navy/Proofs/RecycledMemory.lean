import Navy.Proofs.StaleMemory

/-! What a new process can read of the past. Its stack is handed out as the frames
were, so two machines that differ in free memory only give it different bytes. -/

namespace Navy
open Paging Outcome

variable {roots : Nat → Prop} {initial : Pmm} {root : Nat} {kernel grown : Kernel} {elf : Range}
  {block bstack : HeapCall} {process : Process}

/-- Two kernels that differ at most in what lies in frames the allocator has free. -/
structure FreeApart (kernel other : Kernel) : Prop where
  sched : other.sched = kernel.sched
  pmm : other.vm.pmm = kernel.vm.pmm
  kernelPml4 : other.vm.kernelPml4 = kernel.vm.kernelPml4
  owners : other.vm.owners = kernel.vm.owners
  bytes : ∀ place, ¬ Available kernel.vm.pmm (place / 4096) → other.vm.mem place = kernel.vm.mem place

/-- The addresses a load gives to its process: the pages of the segments and of the stack. -/
def GivenPage (mem : Bytes) (elf : Range) (virt : Nat) : Prop :=
  UserHalf virt ∧ (ImagePage mem elf (headerCount mem elf) (virt / 4096) ∨ StackPage (virt / 4096))

/-- Whatever free memory holds, the process reads the same. -/
def NothingFlows (kernel : Kernel) (elf : Range) (block bstack : HeapCall) : Prop :=
  ∀ other, FreeApart kernel other → ∀ process grown process' grown',
    (loadElfModule kernel elf block bstack).outcome = .ok (process, grown) →
    (loadElfModule other elf block bstack).outcome = .ok (process', grown') → ∀ virt, GivenPage kernel.vm.mem elf virt →
      userByte grown.vm.mem (vmmSwitchSpace process.pml) virt = userByte grown'.vm.mem
        (vmmSwitchSpace process'.pml) virt

theorem stack_length (ran : (loadElfModule kernel elf block bstack).outcome = .ok (process, grown)) :
    process.stack.length = kernelStackSize := by
  obtain ⟨pml, vm, loaded, -, -, task⟩ := loadElfModule_ok ran
  obtain ⟨_, _, _, _, stack, given, mapped, -, -, -, -, mapping, rfl, -⟩ := taskInit_ok task
  obtain ⟨⟨⟩, equal, -⟩ := bind_ok mapping
  exact check_ok equal

/-- The stack after a load, and after the same load on a machine with one of its bytes changed. -/
structure StackShows (kernel : Kernel) (elf : Range) (block bstack : HeapCall) (process : Process) (grown : Kernel)
    (offset : Nat) : Prop where
  free : Available kernel.vm.pmm ((process.stack.base + offset) / 4096)
  runs : ∀ value, (loadElfModule (kernel.poke (process.stack.base + offset) value) elf block bstack).outcome =
    .ok (process, grown.poke (process.stack.base + offset) value)
  reads : ∀ value, userByte (grown.poke (process.stack.base + offset) value).vm.mem (vmmSwitchSpace process.pml)
    (userStackBase + offset) = some value

theorem load_stack (sound : Sane initial roots root kernel.vm) (homed : Homed roots kernel)
    (placed : Placed roots kernel.vm elf) (fits : ModuleFits kernel.vm.mem elf)
    (present : DataPresent kernel.vm.mem elf)
    (ran : (loadElfModule kernel elf block bstack).outcome = .ok (process, grown)) {offset : Nat}
    (inside : offset < kernelStackSize) : StackShows kernel elf block bstack process grown offset := by
  obtain ⟨fresh, loaded⟩ := loadElfModule_loaded sound homed placed fits present ran
  obtain ⟨-, -, entries, -⟩ := loadElfModule_made sound.ledger ran
  have entry := entries.subset List.mem_cons_self
  have aligned := (loaded.sound.ledger.accounts.aligned process.stack (List.mem_map_of_mem entry)).1
  have length := stack_length ran
  have page : (process.stack.base + offset) / 4096 ∈ process.stack.pages := by
    rw [Range.mem_pages, length]
    simp only [kernelStackSize] at inside ⊢
    omega
  have reserved := loaded.sound.held _ entry (by simp) (by simp) _ page
  refine ⟨(loadElfModule_poke 0 sound homed placed fits present page ran).1,
    fun value => (loadElfModule_poke value sound homed placed fits present page ran).2, fun value => ?_⟩
  -- the byte is in no page table, so its address stays what it is
  obtain ⟨-, -, -, walks⟩ := @Sane.write _ _ _ _ loaded.sound (· = (process.stack.base + offset) / 4096)
    (fun other same => same ▸ reserved) (Function.update grown.vm.mem (process.stack.base + offset) value)
    (fun place outside => Function.update_of_ne (fun clash => outside (congrArg (· / 4096) clash)) _ _)
  have walked := (walks fresh (userStackBase + offset) (.inr rfl)).trans (loaded.stack offset inside)
  have target : process.stack.base + offset / 4096 * 4096 + (userStackBase + offset) % pageSize =
    process.stack.base + offset := by
    simp only [userStackBase, pageSize]
    omega
  rw [loaded.switch, userByte, Kernel.poke_vm, Vm.poke_mem, userAddress_walk walked rfl]
  dsimp only
  rw [target, Option.map_some, Function.update_self]

/-- Every byte of the new stack is the one that was left in the frame. -/
theorem stack_stale (sound : Sane initial roots root kernel.vm) (homed : Homed roots kernel)
    (placed : Placed roots kernel.vm elf) (fits : ModuleFits kernel.vm.mem elf)
    (present : DataPresent kernel.vm.mem elf)
    (ran : (loadElfModule kernel elf block bstack).outcome = .ok (process, grown)) {offset : Nat}
    (inside : offset < kernelStackSize) :
    Available kernel.vm.pmm ((process.stack.base + offset) / 4096) ∧
      userByte grown.vm.mem (vmmSwitchSpace process.pml) (userStackBase + offset) = some
        (kernel.vm.mem (process.stack.base + offset)) := by
  have shows := load_stack sound homed placed fits present ran inside
  have runs := shows.runs (kernel.vm.mem (process.stack.base + offset))
  have reads := shows.reads (kernel.vm.mem (process.stack.base + offset))
  -- a byte changed to what it is
  have same : kernel.poke (process.stack.base + offset) (kernel.vm.mem (process.stack.base + offset)) = kernel := by
    unfold Kernel.poke Vm.poke
    rw [Function.update_eq_self]
  rw [same, ran] at runs
  obtain ⟨-, unchanged⟩ := Prod.mk.inj (Except.ok.inj runs)
  rw [← unchanged] at reads
  exact ⟨shows.free, reads⟩

/-- Another byte in the frame is another byte in the stack. -/
theorem stack_flows (sound : Sane initial roots root kernel.vm) (homed : Homed roots kernel)
    (placed : Placed roots kernel.vm elf) (fits : ModuleFits kernel.vm.mem elf)
    (present : DataPresent kernel.vm.mem elf)
    (ran : (loadElfModule kernel elf block bstack).outcome = .ok (process, grown)) :
    ¬ NothingFlows kernel elf block bstack := by
  intro nothing
  obtain ⟨offset, inside⟩ : ∃ offset, offset < kernelStackSize := ⟨0, by decide⟩
  have shows := load_stack sound homed placed fits present ran inside
  have apart (value : BitVec 8) : FreeApart kernel (kernel.poke (process.stack.base + offset) value) := by
    refine ⟨rfl, rfl, rfl, rfl, fun place held => Function.update_of_ne ?_ _ _⟩
    rintro rfl
    exact held shows.free
  have given : GivenPage kernel.vm.mem elf (userStackBase + offset) := by
    unfold GivenPage UserHalf StackPage
    simp only [userStackBase, kernelStackSize] at inside ⊢
    omega
  have same (value : BitVec 8) : kernel.vm.mem (process.stack.base + offset) = value := by
    have both := nothing _ (apart value) _ _ _ _ ran (shows.runs value) _ given
    rw [(stack_stale sound homed placed fits present ran inside).2, shows.reads] at both
    exact Option.some.inj both
  exact absurd ((same 0).symm.trans (same 1)) (by decide)

/-- On no state of an orderly run does a sound module load without learning what
the free frames held. -/
theorem recycled_memory_flows {system loaded : System} (run : System.Run Orderly system)
    (fine : SoundLoad system (.load elf block bstack))
    (loads : system.act (.load elf block bstack) = .ok loaded) :
    ¬ NothingFlows system.kernel elf block bstack := by
  obtain ⟨initial, owner, root, table, live, owned⟩ := run_live run
  obtain ⟨⟨process, kernel⟩, loading, -⟩ := bind_ok loads
  obtain ⟨placed, fits, present⟩ := fine elf block bstack rfl
  rw [← live.space] at placed
  exact stack_flows live.sound (live.homed live.current) placed fits present loading

/-- A module of one page that loads right after boot. -/
theorem gigabyte_page : ∃ system block bstack loaded, System.Run Orderly system ∧
    SoundLoad system (.load pageModule block bstack) ∧
    IsSegment system.kernel.vm.mem pageModule 0 ∧ system.act (.load pageModule block bstack) = .ok loaded := by
  obtain ⟨initial, root, kernel, block, bstack, process, grown, load⟩ := gigabyte_loads oneSegment_formed (by decide)
  have formed := load.formed.formed
  refine ⟨⟨kernel, [], 0, [], []⟩, block, bstack, ⟨grown, [process], 0, [bstack.pointer], []⟩, load.boots Orderly,
    ?_, load.formed.segment, ?_⟩
  · intro elf block bstack same
    obtain ⟨rfl, -, -⟩ := SystemAction.load.inj same
    refine ⟨?_, formed.fits load.placed, formed.present load.placed⟩
    rw [load.started.space]
    exact load.placed
  · change System.load _ _ _ _ = _
    unfold System.load
    dsimp only
    rw [load.ran, ok_bind]
    unfold System.take
    dsimp only
    rw [check_true _ ⟨load.present, List.not_mem_nil⟩]
    rfl

theorem recycled_memory_flows_page : ∃ system block bstack, System.Run Orderly system ∧
    SoundLoad system (.load pageModule block bstack) ∧
    IsSegment system.kernel.vm.mem pageModule 0 ∧ ¬ NothingFlows system.kernel pageModule block bstack := by
  obtain ⟨system, block, bstack, loaded, run, fine, segment, loads⟩ := gigabyte_page
  exact ⟨system, block, bstack, run, fine, segment, recycled_memory_flows run fine loads⟩

/-- The stack of the first process shows memory nobody cleared. -/
theorem first_stack_stale : ¬ ∀ system elf block bstack, System.Run Orderly system →
    SoundLoad system (.load elf block bstack) →
    NothingFlows system.kernel elf block bstack := by
  intro claim
  obtain ⟨system, block, bstack, loaded, run, fine, -, loads⟩ := gigabyte_page
  obtain ⟨initial, owner, root, table, live, owned⟩ := run_live run
  obtain ⟨⟨process, kernel⟩, loading, -⟩ := bind_ok loads
  obtain ⟨placed, fits, present⟩ := fine pageModule block bstack rfl
  rw [← live.space] at placed
  exact stack_flows live.sound (live.homed live.current) placed fits present loading (claim _ _ _ _ run fine)

end Navy
