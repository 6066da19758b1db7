import Navy.Proofs.BootMap
import Navy.Proofs.LiveSystem

/-! The first process of a user on the gigabyte machine: an orderly run to its
push, and on to its first turn. -/

namespace Navy
open Outcome Paging

/-- A step that neither sweeps nor loads is in order. -/
theorem orderly_quiet {system : System} {action : SystemAction}
    (sweeps : ∀ bstack mailbox, action ≠ .slay bstack mailbox)
    (loads : ∀ elf block bstack, action ≠ .load elf block bstack) : Orderly system action := by
  refine ⟨fun process slain => ?_, fun elf block bstack same => absurd same (loads elf block bstack)⟩
  obtain ⟨bstack, mailbox, same⟩ := slain.slays
  exact absurd same (sweeps bstack mailbox)

/-- A load leaves the direct map alone where memory was not free. -/
theorem loadElfModule_direct {initial : Pmm} {roots : Nat → Prop} {root page : Nat} {kernel grown : Kernel}
    {elf : Range} {block bstack : HeapCall} {process : Process} (sound : Sane initial roots root kernel.vm)
    (homed : Homed roots kernel) (placed : Placed roots kernel.vm elf) (fits : ModuleFits kernel.vm.mem elf)
    (present : DataPresent kernel.vm.mem elf)
    (ran : (loadElfModule kernel elf block bstack).outcome = .ok (process, grown)) (small : page < 2 ^ 34)
    (held : ¬ Available kernel.vm.pmm page) : walk grown.vm.mem root (directPage page) = walk kernel.vm.mem root
    (directPage page) := by
  obtain ⟨fresh, made, loaded, steps, task⟩ := loadElfModule_steps sound homed placed fits present ran
  obtain ⟨took, -, -⟩ := taskInit_took steps.imaged.took.sound steps.homed (.inr rfl) steps.apart task
  have held1 : ¬ Available made.pmm page := fun free => held (steps.created.grows.available _ free)
  have held2 : ¬ Available loaded.pmm page := fun free => held1 (steps.imaged.took.moves.available _ free)
  rw [took.direct root _ (.inl sound.isRoot) small held2, steps.imaged.took.direct root _
    (.inl sound.isRoot) small held1, steps.created.walks root _ sound.isRoot]

/-- A page of low memory stays where the direct map has it, for the kernel only. -/
theorem gigabyte_direct {mem : Bytes} {ist0 ist1 rsp0 block table : HeapCall} {system : System}
    (boots : boot mem gigabyte ist0 ist1 rsp0 block table = .ok system) {page : Nat} (below : page < 256) :
    ∃ initial root, Started initial root system ∧
      ¬ Available system.kernel.vm.pmm page ∧
      walk system.kernel.vm.mem root (directPage page) = some ⟨page * 4096, true, false⟩ := by
  have fits : gigabyte.Fits := by
    constructor <;> simp [gigabyte]
  obtain ⟨pmm, edited, vm, root, answer, placed, mapped, sane, opened, took, started, owned, loaded, torn⟩ :=
    boot_grown fits boots
  obtain ⟨pmm', _, placed', sized, -⟩ := gigabyte_vm mem
  obtain ⟨rfl, rfl⟩ := Prod.mk.inj (Except.ok.inj (placed.symm.trans placed'))
  have addressable : ∀ mmap ∈ [gigabyteEntry], Addressable mmap := by
    simp [Addressable, gigabyteEntry]
  obtain ⟨kernel, direct⟩ := vmmInit_direct sized addressable mapped
  obtain rfl : kernel = root := direct.own.unique sane.own (direct.spaces.aligned kernel rfl).2
    (sane.spaces.aligned root rfl).2
  have low : ¬ Available pmm page := gigabyte_low placed rfl page below
  have held : ¬ Available vm.pmm page := fun free => low (sane.initially free)
  refine ⟨pmm, kernel, ⟨took.sound, took.opened opened, Table.init started, owned, loaded, torn⟩, fun free =>
    held (took.moves.available page free), ?_⟩
  rw [took.direct kernel page rfl (by omega) held, directPage_eq (by omega)]
  have here := direct.shown (page * 4096) (by omega) (.inl (by omega))
  rwa [Nat.mul_div_cancel _ (by decide)] at here

/-- An orderly run to the push of a first process. -/
theorem gigabyte_orderly : ∃ initial heap root first second fresh rip bstack stack sched vm,
    System.Run Orderly ⟨⟨sched, vm⟩, [], 0, [mmapPhysToIo (heap + 0x10000)], []⟩ ∧
      pairSched root first second (newTask (mmapPhysToIo fresh) rip bstack stack) = .ok sched ∧
      Working (fun _ => 0) initial (fun other => other = root ∨ other = fresh) root heap 19992 vm ∧
      (.stack (mmapPhysToIo fresh), stack) ∈ vm.owners ∧ stack.length ≠ 0 ∧ Stacked vm.mem fresh stack ∧
      walk vm.mem fresh (directPage 0x20) = some ⟨0x20000, true, false⟩ := by
  obtain ⟨initial, heap, root, start, booted, sched, fresh, stack, vm, boots, working, loads, loaded, pushed,
    pair, later⟩ :=
    gigabyte_pushes (fun _ => 0) (by decide)
  have fits : gigabyte.Fits := by
    constructor <;> simp [gigabyte]
  obtain ⟨initial', root', started, held, low⟩ := gigabyte_direct boots (show 0x20 < 256 by decide)
  obtain rfl : root' = root :=
    started.sound.own.unique working.own (started.sound.spaces.aligned root' rfl).2 (working.spaces.aligned root rfl).2
  have none : member booted.mem lowModule.base ePhnum 2 = 0 := (working.member (by decide)).trans (Bytes.read_zero _ _)
  have fits' : ModuleFits booted.mem lowModule :=
    ⟨by decide, fun index among => absurd (none ▸ among) (Nat.not_lt_zero _)⟩
  have present : DataPresent booted.mem lowModule := fun index segment => absurd (none ▸ segment.1) (Nat.not_lt_zero _)
  have placed : Placed (· = root') booted lowModule := (working.loadable (show 0x10000 + 64 ≤ 2 ^ 20 by decide)).placed
  have sound : SoundLoad ⟨⟨start, booted⟩, [], 0, [], []⟩
    (.load lowModule (laterCall heap 0xe000) (laterCall heap 0x10000)) := by
    intro elf block bstack same
    obtain ⟨rfl, -, -⟩ := SystemAction.load.inj same
    refine ⟨?_, fits', present⟩
    rw [started.space]
    exact placed
  have run : System.Run Orderly _ :=
    .step (.step (.boot fits boots) ⟨fun process slain => List.not_mem_nil, sound⟩ loaded)
    (orderly_quiet (fun _ _ other => by cases other) fun _ _ _ other => by cases other) pushed
  have homed : Homed (· = root') ⟨start, booted⟩ := started.homed
  have sane : Sane initial' (· = root') root' (Kernel.mk start booted).vm := started.sound
  obtain ⟨fresh', image⟩ := loadElfModule_loaded sane homed placed fits' present loads
  obtain rfl : fresh' = fresh := by
    have same : vmmSwitchSpace (mmapPhysToIo fresh) = fresh' := image.switch
    rw [← same]
    exact phys_io _ (later.spaces.aligned fresh (.inr rfl)).2
  obtain ⟨-, -, entries, some, -⟩ := loadElfModule_made sane.ledger loads
  refine ⟨initial, heap, root', _, _, fresh', _, _, stack, sched, vm, run, pair, later,
    entries.subset List.mem_cons_self, some, image.stack, ?_⟩
  have canonical := directPage_kernel (show 0x20 < 2 ^ 34 by decide)
  rw [image.sound.spaces.walk_kernel (.inr rfl) image.sound.isRoot canonical.1 canonical.2]
  exact (loadElfModule_direct sane homed placed fits' present loads (by decide) held).trans low

/-- The scheduler when the first process of a user has its first turn. -/
structure FirstTurn (sched : Sched) (pml : Nat) : Prop where
  current : ∃ process, schedCurrentProcess sched = .ok process ∧ process.pid = 1 ∧ process.state = .running ∧
    process.pml = pml
  number : sched.currentPid = 1
  cr3 : sched.cr3 = vmmSwitchSpace pml
  kernel : schedGetByPid sched 0 = .ok (some 0) ∧ ∃ first, sched.processes.get 0 = .ok first ∧ first.mailbox = vecInit
  own : schedGetByPid sched 1 = .ok (some 1) ∧ ∃ process, sched.processes.get 1 = .ok process ∧
    process.mailbox = vecInit
  mails : ∀ pointer, ∃ filled mailed msg taken process, syscallIpcsend sched ⟨0, 1, 0⟩ (some pointer) =
    .ok (filled, mailed) ∧
    syscallIpcrcvOneshot mailed = .ok (some msg, taken) ∧ schedCurrentProcess mailed = .ok process ∧
      process.state = .running ∧
    process.pml = pml ∧ process.mailbox.length = 1 ∧ mailed.currentPid = 1 ∧ taken.cr3 = mailed.cr3

theorem first_turn {root first second pml rip bstack : Nat} {stack : Range} {sched : Sched}
    (pushed : pairSched root first second (newTask pml rip bstack stack) = .ok sched) (vm : Vm) (blocks : List Nat) :
    ∃ turn, ticks.foldlM System.act ⟨⟨sched, vm⟩, [], 0, blocks, []⟩ = .ok ⟨⟨turn, vm⟩, [], 0, blocks, []⟩ ∧
      FirstTurn turn pml := by
  obtain rfl := Except.ok.inj pushed
  refine ⟨_, rfl, ⟨_, rfl, rfl, rfl, rfl⟩, rfl, rfl, ⟨rfl, _, rfl, rfl⟩, ⟨rfl, _, rfl, rfl⟩, fun pointer => ?_⟩
  exact ⟨_, _, _, _, _, rfl, rfl, rfl, rfl, rfl, rfl, rfl, rfl⟩

theorem gigabyte_turn : ∃ initial heap root fresh stack turn vm,
    System.Run Orderly ⟨⟨turn, vm⟩, [], 0, [mmapPhysToIo (heap + 0x10000)], []⟩ ∧ FirstTurn turn (mmapPhysToIo fresh) ∧
      Working (fun _ => 0) initial (fun other => other = root ∨ other = fresh) root heap 19992 vm ∧
      (.stack (mmapPhysToIo fresh), stack) ∈ vm.owners ∧ stack.length ≠ 0 ∧ Stacked vm.mem fresh stack ∧
      walk vm.mem fresh (directPage 0x20) = some ⟨0x20000, true, false⟩ := by
  obtain ⟨initial, heap, root, first, second, fresh, rip, bstack, stack, sched, vm, run, pair, working, entry, some,
    stacked, low⟩ := gigabyte_orderly
  obtain ⟨turn, ticked, turns⟩ := first_turn pair vm [mmapPhysToIo (heap + 0x10000)]
  have step (state : System) (action : SystemAction) (next : System) (member : action ∈ ticks)
    (kept : System.Run Orderly state)
      (ran : state.act action = .ok next) : System.Run Orderly next := by
    obtain rfl := (List.mem_replicate.mp member).2
    exact .step kept (orderly_quiet (fun _ _ other => by cases other) fun _ _ _ other => by cases other) ran
  exact ⟨initial, heap, root, fresh, stack, turn, vm, foldlM_keeps step run ticked, turns, working, entry,
    some, stacked, low⟩

end Navy
