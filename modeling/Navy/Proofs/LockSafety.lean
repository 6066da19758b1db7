import Navy.Locks

/-! Deadlock on the kernel's locks. -/

namespace Navy

open LockSections

/-- Any number of tasks executing kernel operations, in any interleaving whose
steps meet a condition. -/
def KernelRun (meets : Cpu KernelLock → Cpu KernelLock → Prop) (cpu : Cpu KernelLock) : Prop :=
  ∃ programs, (∀ task, Traces Sections.task (programs task)) ∧ Reached meets programs cpu

/-- While the timer leaves exposed sections alone, nobody spins for a lock of a
task that does not run. -/
theorem sheltered_never_stuck {cpu : Cpu KernelLock} (run : KernelRun Sheltered cpu) : ¬ Stuck cpu := by
  obtain ⟨programs, -, reached⟩ := run
  exact reached.orderly.not_stuck

section Preempted

/-- Mapping one page whose first table is missing. -/
private def mapping : List (Instr KernelLock) := [.acquire .vmm, .acquire .pmm, .release .pmm, .release .vmm]

/-- Making a space; the lock calls are those of the mapping above. -/
private def programs : Nat → List (Instr KernelLock)
  | 0 => mapping
  | 1 => mapping
  | _ => []

private theorem mapping_traces : Traces Sections.vmmMapRange mapping := by
  have page : Traces Sections.vmmMapPage [.acquire .pmm, .release .pmm] :=
    .seq (.right (.seq (.locked (.plain 0)) (.plain 0))) (.seq (.left (.plain 0)) (.seq (.left (.plain 0)) (.plain 0)))
  exact .seq (.locked (.more page .none)) (.plain 0)

private theorem creating_traces : Traces Sections.vmmSpaceCreate mapping :=
  .locked (.seq (.locked (.plain 0)) (.plain 0))

private theorem programs_trace (task : Nat) : Traces Sections.task (programs task) := by
  match task with
  | 0 => exact .more (.right (.right (.right (.right (.right (.left mapping_traces)))))) .none
  | 1 => exact .more (.right (.right (.right (.right (.right (.right (.right (.left creating_traces)))))))) .none
  | _ + 2 => exact .none

/-- Inside `vmm_map_range` the inner `pmm_alloc` turns interrupts on again; a
switch there to a task that makes a space never comes back. -/
theorem exposed_section_deadlocks : ∃ cpu, KernelRun (fun _ _ => True) cpu ∧ Stuck cpu := by
  have one : Reached (fun _ _ => True) programs _ := .step .start trivial (.acquire rfl rfl)
  have two := one.step trivial (.acquire rfl rfl)
  have three := two.step trivial (.release rfl)
  have four := three.step trivial (.timer rfl 1)
  have five := four.step trivial (.spin rfl rfl)
  exact ⟨_, ⟨programs, programs_trace, five⟩, ⟨.vmm, _, 0, rfl, rfl, nofun, by decide⟩, rfl⟩

theorem sheltered_never_stuck_switch : ∃ cpu, KernelRun Sheltered cpu ∧ cpu.running = 1 ∧
    cpu.past 0 = mapping ∧ ¬ Stuck cpu := by
  have stays {cpu after : Cpu KernelLock} (before : Reached Sheltered programs cpu) (ran : Step cpu after)
      (same : after.running = cpu.running) : Reached Sheltered programs after :=
    before.step (fun moved => absurd same moved) ran
  have one := stays .start (.acquire rfl rfl) rfl
  have two := stays one (.acquire rfl rfl) rfl
  have three := stays two (.release rfl) rfl
  have four := stays three (.release rfl) rfl
  have five := four.step (fun _ exposed => exposed.1 rfl) (.timer rfl 1)
  have run : KernelRun Sheltered _ := ⟨programs, programs_trace, five⟩
  exact ⟨_, run, rfl, rfl, sheltered_never_stuck run⟩

end Preempted

end Navy
