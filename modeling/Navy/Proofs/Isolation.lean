import Navy.Proofs.FirstTurn

/-! What a process can reach in user mode. The heap maps its blocks with the user
bit, into the half all spaces share, so every process reaches all of the heap. -/

namespace Navy
open Outcome Paging

/-- A byte of a frame the process was given, for a segment or for its stack. -/
def Process.Owns (process : Process) (vm : Vm) (place : Nat) : Prop :=
  ∃ entry ∈ vm.owners, (entry.1 = .segment process.pml ∨ entry.1 = .stack process.pml) ∧ place / 4096 ∈ entry.2.pages

/-- In user mode the process reaches nothing but its own frames. -/
def Isolated (vm : Vm) (process : Process) : Prop :=
  ∀ virt place, Canonical virt → userAddress vm.mem (vmmSwitchSpace process.pml) virt = some place →
    process.Owns vm place

/-- User mode reads and writes the byte through the address. -/
def Exposed (vm : Vm) (process : Process) (place : Nat) : Prop :=
  ∃ virt target, Canonical virt ∧ walk vm.mem (vmmSwitchSpace process.pml) virt = some target ∧ target.user = true ∧
    target.writable = true ∧ userAddress vm.mem (vmmSwitchSpace process.pml) virt = some place

namespace Live

variable {initial : Pmm} {root : Nat} {table : List Process} {system : System} {process : Process}

theorem spaceOf (live : Live initial root table system) (has : system.Has process) :
    liveSpaces root table system (vmmSwitchSpace process.pml) := by
  rcases (live.has process).mp has with loaded | ⟨pid, alive, found⟩
  · exact .inr (.inl ⟨process, loaded, rfl⟩)
  · exact .inr (.inr ⟨pid, process, alive, found, rfl⟩)

theorem exposed (live : Live initial root table system) (has : system.Has process) {place : Nat}
    (owned : heapOwned system.kernel.vm place = true) : Exposed system.kernel.vm process place := by
  obtain ⟨entry, member, inside⟩ := List.any_eq_true.mp owned
  simp only [Bool.and_eq_true, beq_iff_eq, decide_eq_true_eq] at inside
  obtain ⟨⟨heap, low⟩, high⟩ := inside
  have accounts := live.sound.ledger.accounts
  have aligned := accounts.aligned entry.2 (List.mem_map_of_mem member)
  have bound := accounts.bound entry.2 (List.mem_map_of_mem member)
  have most := live.sound.ledger.bound
  have page : place / 4096 ∈ entry.2.pages := Range.mem_pages.mpr (by omega)
  have small : place / 4096 < 2 ^ 34 := by omega
  have walked := live.opened entry member heap _ page _ (live.spaceOf has)
  have direct := directPage_eq small
  have same : walk system.kernel.vm.mem (vmmSwitchSpace process.pml) (directPage (place / 4096) + place % 4096) =
      some ⟨place / 4096 * 4096, true, true⟩ := by
    rw [← walked]
    apply walk_page
    rw [direct]
    simp only [mmapIoBase]
    omega
  refine ⟨_, _, ?_, same, rfl, rfl, ?_⟩
  · rw [direct]
    simp only [Canonical, mmapIoBase]
    omega
  · have whole : mmapIoBase % 4096 = 0 := by decide
    rw [userAddress_walk same rfl, direct]
    generalize mmapIoBase = start at whole
    simp only [pageSize, Option.some.injEq]
    omega

theorem open_to_all (live : Live initial root table system) (has : system.Has process) :
    ¬ Isolated system.kernel.vm process := by
  intro isolated
  obtain ⟨place, owned⟩ := live.heap
  obtain ⟨virt, target, canonical, -, -, -, address⟩ := live.exposed has owned
  obtain ⟨entry, member, kind, page⟩ := isolated virt place canonical address
  have other : entry.1 ≠ .heap := by
    rcases kind with segment | stack
    · simp [segment]
    · simp [stack]
  have foreign := live.sound.ledger.unheaped member other page
  rw [owned] at foreign
  cases foreign

end Live

/-- In every state of an orderly run every process reaches every byte of the heap
in user mode, and may write it. -/
theorem heap_exposed {system : System} (run : System.Run Orderly system) : (∃ process, system.Has process) ∧
    ∀ process, system.Has process → ¬ Isolated system.kernel.vm process ∧
      ∀ place, heapOwned system.kernel.vm place = true → Exposed system.kernel.vm process place := by
  obtain ⟨initial, owner, root, table, live, owned⟩ := run_live run
  obtain ⟨first, found, alive⟩ := owned.kernel
  exact ⟨⟨first, (live.has first).mpr (.inr ⟨0, owned.apart found alive, found⟩)⟩, fun process has =>
    ⟨live.open_to_all has, fun place => live.exposed has⟩⟩

/-- An orderly run to the first process of a user. -/
theorem gigabyte_process : ∃ system process, System.Run Orderly system ∧ system.Has process ∧ process.pid = 1 := by
  obtain ⟨initial, heap, root, first, second, fresh, rip, bstack, stack, sched, vm, run, pair, -⟩ := gigabyte_orderly
  obtain rfl := Except.ok.inj pair
  exact ⟨_, _, run, .inr ⟨1, List.not_mem_nil, Nat.one_lt_two, rfl⟩, rfl⟩

theorem heap_exposed_first : ∃ system process, System.Run Orderly system ∧ process.pid = 1 ∧
    ¬ Isolated system.kernel.vm process := by
  obtain ⟨system, process, run, has, pid⟩ := gigabyte_process
  exact ⟨system, process, run, pid, ((heap_exposed run).2 process has).1⟩

theorem first_reaches_heap : ¬ ∀ system process, System.Run (fun _ _ => True) system → system.Has process →
    Isolated system.kernel.vm process := by
  intro claim
  obtain ⟨system, process, run, has, -⟩ := gigabyte_process
  obtain ⟨initial, owner, root, table, live, -⟩ := run_live run
  exact live.open_to_all has (claim system process (run.mono fun _ _ _ => trivial) has)

end Navy
