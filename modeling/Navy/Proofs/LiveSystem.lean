import Navy.Proofs.ModuleImage
import Navy.Proofs.Teardown

/-! The address spaces over whole runs: of the kernel, of every process that was
loaded and of none that was torn down. The page tables stay sound, and the heap
stays mapped in all of them, while modules are sound and no process is torn down
twice. -/

namespace Navy
open Outcome Paging

/-- The processes there are: the loaded ones, and those in the table that were not torn down. -/
def System.Has (system : System) (process : Process) : Prop :=
  process ∈ system.loaded ∨ ∃ pid, pid ∉ system.torn ∧ pid < system.kernel.sched.processes.length ∧
    system.kernel.sched.processes.get pid = .ok process

/-- The address spaces in use: the kernel's and those of the processes. -/
def System.Space (system : System) (space : Nat) : Prop :=
  space = vmmSwitchSpace system.kernel.vm.kernelPml4 ∨ ∃ process, system.Has process ∧
    space = vmmSwitchSpace process.pml

/-- A load finds a module with sound headers, in memory that is nobody's. -/
def SoundLoad (system : System) (action : SystemAction) : Prop :=
  ∀ elf block bstack, action = .load elf block bstack → Placed system.Space system.kernel.vm elf ∧
    ModuleFits system.kernel.vm.mem elf ∧ DataPresent system.kernel.vm.mem elf

/-- Modules are sound, and no sweep comes to a process that was torn down. -/
structure Orderly (system : System) (action : SystemAction) : Prop where
  visit : FirstVisit system action
  load : SoundLoad system action

/-- The same spaces, for a table of processes. -/
def liveSpaces (root : Nat) (table : List Process) (system : System) (space : Nat) : Prop :=
  space = root ∨ (∃ process ∈ system.loaded, space = vmmSwitchSpace process.pml) ∨
    ∃ pid process, pid ∉ system.torn ∧ table[pid]? = some process ∧ space = vmmSwitchSpace process.pml

/-- What holds of the machine in every state of such a run. -/
structure Live (initial : Pmm) (root : Nat) (table : List Process) (system : System) : Prop where
  valid : Table system.kernel.sched table
  sound : Sane initial (liveSpaces root table system) root system.kernel.vm
  opened : Opened (liveSpaces root table system) system.kernel.vm
  first : ∀ process, table[0]? = some process → vmmSwitchSpace process.pml = root
  homes : ∀ process, process ∈ system.loaded ∨ process ∈ table → process.pml = mmapPhysToIo (vmmSwitchSpace process.pml)
  others : ∀ process, process ∈ system.loaded ∨ (∃ pid ≠ 0, table[pid]? = some process) →
    vmmSwitchSpace process.pml ≠ root
  current : system.kernel.sched.currentPid ∉ system.torn
  heap : ∃ place, heapOwned system.kernel.vm place = true

theorem syscallIpcsend_ok {sched after : Sched} {msg filled : Ipc} {answer : Option Nat}
    (ran : syscallIpcsend sched msg answer = .ok (filled, after)) :
    ∃ pid target mailbox, sched.processes.get pid = .ok target ∧
      after = { sched with processes := sched.processes.modify pid { target with mailbox } } := by
  obtain ⟨⟨sent, proc, middle⟩, expanded, ran⟩ := bind_ok ran
  obtain ⟨stored, storing, rest⟩ := bind_ok ran
  obtain ⟨-, rfl⟩ := Prod.mk.inj (Except.ok.inj rest)
  obtain ⟨process, again, storing⟩ := bind_ok storing
  obtain ⟨mailbox, -, rest⟩ := bind_ok storing
  obtain rfl := Except.ok.inj rest
  obtain ⟨current, -, expanded⟩ := bind_ok expanded
  obtain ⟨found, -, expanded⟩ := bind_ok expanded
  cases found with
  | none => cases expanded
  | some place =>
    obtain ⟨target, got, expanded⟩ := bind_ok expanded
    obtain ⟨grown, -, rest⟩ := bind_ok expanded
    have same := Except.ok.inj rest
    simp only [Prod.mk.injEq] at same
    obtain ⟨-, rfl, rfl⟩ := same
    obtain rfl := Except.ok.inj ((Vec.get_modify _ _ _).symm.trans again)
    refine ⟨place, target, mailbox, got, ?_⟩
    dsimp only
    rw [Vec.modify_modify]

theorem syscallIpcsend_current {sched after : Sched} {msg filled : Ipc} {answer : Option Nat}
    (ran : syscallIpcsend sched msg answer = .ok (filled, after)) : after.currentPid = sched.currentPid := by
  obtain ⟨pid, target, mailbox, -, rfl⟩ := syscallIpcsend_ok ran
  rfl

/-- A teardown leaves a sound machine without the space of the process. -/
theorem reap_sane {initial : Pmm} {roots fewer : Nat → Prop} {root gone : Nat} {kernel after : Kernel}
    {process : Process} {bstack mailbox : HeapCall} (sound : Sane initial roots root kernel.vm)
    (opened : Opened roots kernel.vm) (homed : Homed roots kernel)
    (stack : stackEntry process ∈ kernel.vm.owners) (entry : rootEntry process ∈ kernel.vm.owners)
    (less : ∀ other, fewer other → roots other) (kept : fewer root) (was : roots gone) (dropped : ¬ fewer gone)
    (home : process.pml = mmapPhysToIo gone) (homed' : Homed fewer kernel)
    (ran : reap kernel process bstack mailbox = .ok after) :
    Sane initial fewer root after.vm ∧ Opened fewer after.vm := by
  obtain ⟨stackless, stackFreed, ran⟩ := bind_ok ran
  obtain ⟨unstacked, stackGiven, ran⟩ := bind_ok ran
  obtain ⟨rootless, destroyed, mailFreed⟩ := bind_ok ran
  have base : mmapIoToPhys process.pml = gone := by
    rw [home]
    exact phys_io _ (sound.spaces.aligned gone was).2
  have page {page : Nat} : page ∈ (rootEntry process).2.pages ↔ page = gone / 4096 := by
    simp only [rootEntry, vmmSwitchSpace, base, Range.mem_pages, pageSize]
    omega
  -- the kernel stack
  obtain ⟨took1, sched1⟩ := kfree_took sound homed stackFreed
  have sound1 := took1.sound
  -- the user stack
  have stack1 := took1.enters.kept stack
  obtain ⟨sound2, owners2, mem2⟩ := sound1.release stack1 (fun page inside table isTable =>
    (sound1.held _ stack1 (by simp [stackEntry]) (by simp [stackEntry]) page inside).apart table isTable) stackGiven
  have entry2 : rootEntry process ∈ unstacked.owners := by
    rw [owners2]
    exact (List.mem_erase_of_ne (by simp [rootEntry])).mpr (took1.enters.kept entry)
  -- the PML4
  have sound3 := sound2.drop less kept
  have reserved (index : Nat) (same : index = gone / 4096) : Reserved fewer unstacked index := by
    subst same
    exact ⟨sound2.ledger.gone entry2 (page.mpr rfl), fun table isTable => sound2.orphan less was dropped isTable⟩
  have aligned := (sound2.spaces.aligned gone was).1
  have zeroed (place : Nat) (outside : ¬ place / 4096 = gone / 4096) :
      memset unstacked.mem process.pml 0 pageSize place = unstacked.mem place := by
    unfold memset
    rw [base]
    exact Bytes.fill_apart _ _ _ _ _ (by simp only [pageSize]; omega)
  obtain ⟨sound4, tables, -, walks⟩ := sound3.write reserved zeroed
  have clear (index : Nat) (inside : index ∈ (rootEntry process).2.pages) (table : Nat)
      (isTable : IsTable fewer (memset unstacked.mem process.pml 0 pageSize) table) : index ≠ table / 4096 := by
    rw [page.mp inside]
    exact sound2.orphan less was dropped ((tables table).mp isTable)
  obtain ⟨sound5, owners5, mem5⟩ := sound4.release entry2 clear destroyed
  -- the mailbox
  have same (one two : Vm) (owner : Owner) (range : Range) (ran : one.free owner range = .ok two) : two.kernelPml4 =
    one.kernelPml4 := by
    obtain ⟨pmm, -, rest⟩ := bind_ok ran
    obtain rfl := Except.ok.inj rest
    rfl
  have homed5 : Homed fewer { stackless with vm := rootless } :=
    homed'.congr sched1 ((same _ _ _ _ destroyed).trans ((same _ _ _ _ stackGiven).trans took1.moves.kernel))
  obtain ⟨took6, -⟩ := kfree_took sound5 homed5 mailFreed
  refine ⟨took6.sound, took6.opened fun block member heap index inside other isOther => ?_⟩
  rw [owners5] at member
  have member := List.mem_of_mem_erase member
  rw [owners2] at member
  rw [mem5, walks other _ isOther, mem2]
  exact took1.opened opened block (List.mem_of_mem_erase member) heap index inside other (less other isOther)

namespace Live

variable {initial : Pmm} {root : Nat} {table list : List Process} {system after : System}

/-- The running process is there as long as it is not torn down. -/
theorem homed (live : Live initial root table system) {other : System}
    (current : system.kernel.sched.currentPid ∉ other.torn) :
    Homed (liveSpaces root table other) system.kernel := by
  intro space chosen
  unfold heapSpace at chosen
  split at chosen
  next =>
    obtain ⟨process, running, rest⟩ := bind_ok chosen
    obtain rfl := Except.ok.inj rest
    have found := live.valid.running running
    exact ⟨_, .inr (.inr ⟨_, process, current, found, rfl⟩), live.homes process (.inr (List.mem_of_getElem? found))⟩
  next =>
    obtain rfl := Except.ok.inj chosen
    exact ⟨root, .inl rfl, live.sound.own.pml4⟩

theorem grow (live : Live initial root table system) {kernel : Kernel} {kind : Owner → Prop} {moved : Nat → Nat → Prop}
    (took : Took initial (liveSpaces root table system) root kind moved system.kernel.vm kernel.vm)
    (same : kernel.sched = system.kernel.sched) : Live initial root table { system with kernel } := by
  obtain ⟨place, owned⟩ := live.heap
  obtain ⟨added, entered⟩ := took.enters
  exact ⟨by rw [same]; exact live.valid, took.sound, took.opened live.opened, live.first, live.homes, live.others,
    by rw [same]; exact live.current, place, heapOwned_grows entered.owners owned⟩

/-- A step of the scheduler that leaves every process its space. -/
theorem set (live : Live initial root table system) {sched : Sched} {pid : Nat} {process changed : Process}
    (found : table[pid]? = some process) (valid : Table sched (table.set pid changed))
    (same : changed.pml = process.pml) (current : sched.currentPid ∉ system.torn) :
    Live initial root (table.set pid changed) { system with kernel := { system.kernel with sched } } := by
  have inside := (List.getElem?_eq_some_iff.mp found).1
  have old {place : Nat} {other : Process} (here : (table.set pid changed)[place]? = some other) :
      ∃ before, table[place]? = some before ∧ other.pml = before.pml := by
    by_cases clash : pid = place
    · subst clash
      rw [List.getElem?_set_self inside] at here
      obtain rfl := Option.some.inj here
      exact ⟨process, found, same⟩
    · rw [List.getElem?_set_ne clash] at here
      exact ⟨other, here, rfl⟩
  have new {place : Nat} {before : Process} (here : table[place]? = some before) :
      ∃ other, (table.set pid changed)[place]? = some other ∧ other.pml = before.pml := by
    by_cases clash : pid = place
    · subst clash
      obtain rfl := Option.some.inj (here.symm.trans found)
      exact ⟨changed, List.getElem?_set_self inside, same⟩
    · exact ⟨before, by rwa [List.getElem?_set_ne clash], rfl⟩
  have spaces : liveSpaces root (table.set pid changed) { system with kernel := { system.kernel with sched } } =
      liveSpaces root table system := by
    funext space
    refine propext (or_congr_right (or_congr_right ⟨fun held => ?_, fun held => ?_⟩))
    · obtain ⟨place, other, alive, here, pointed⟩ := held
      obtain ⟨before, was, pml⟩ := old here
      exact ⟨place, before, alive, was, pointed.trans (congrArg vmmSwitchSpace pml)⟩
    · obtain ⟨place, before, alive, here, pointed⟩ := held
      obtain ⟨other, is, pml⟩ := new here
      exact ⟨place, other, alive, is, pointed.trans (congrArg vmmSwitchSpace pml.symm)⟩
  refine ⟨valid, by rw [spaces]; exact live.sound, by rw [spaces]; exact live.opened, fun other here =>
    ?_, fun other member => ?_, fun other member => ?_, current, live.heap⟩
  · obtain ⟨before, was, pml⟩ := old here
    rw [pml]
    exact live.first before was
  · rcases member with loaded | member
    · exact live.homes other (.inl loaded)
    · obtain ⟨place, here⟩ := List.mem_iff_getElem?.mp member
      obtain ⟨before, was, pml⟩ := old here
      rw [pml]
      exact live.homes before (.inr (List.mem_of_getElem? was))
  · rcases member with loaded | member
    · exact live.others other (.inl loaded)
    · obtain ⟨place, nonzero, here⟩ := member
      obtain ⟨before, was, pml⟩ := old here
      rw [pml]
      exact live.others before (.inr ⟨place, nonzero, was⟩)

/-- The scheduler's other data play no part. -/
theorem sched (live : Live initial root table system) {sched : Sched} (valid : Table sched table)
    (current : sched.currentPid ∉ system.torn) :
    Live initial root table { system with kernel := { system.kernel with sched } } :=
  ⟨valid, live.sound, live.opened, live.first, live.homes, live.others, current, live.heap⟩

theorem load (live : Live initial root table system) {elf : Range} {block bstack : HeapCall}
    (placed : Placed (liveSpaces root table system) system.kernel.vm elf)
    (fits : ModuleFits system.kernel.vm.mem elf) (present : DataPresent system.kernel.vm.mem elf)
    (ran : system.load elf block bstack = .ok after) :
    Live initial root table after := by
  obtain ⟨⟨process, kernel⟩, loading, ran⟩ := bind_ok ran
  obtain ⟨⟨⟩, -, rest⟩ := bind_ok ran
  obtain rfl := Except.ok.inj rest
  obtain ⟨fresh, loaded⟩ := loadElfModule_loaded live.sound (live.homed live.current) placed fits present loading
  obtain ⟨⟨added, entered⟩, same, -⟩ := loadElfModule_made live.sound.ledger loading
  have home : process.pml = mmapPhysToIo fresh := by rw [loaded.process]; rfl
  have spaces : liveSpaces root table { system with kernel, loaded := system.loaded ++ [process] } =
      fun other => liveSpaces root table system other ∨ other = fresh := by
    funext space
    refine propext ⟨fun held => ?_, fun held => ?_⟩
    · rcases held with kernel | ⟨other, among, pointed⟩ | pushed
      · exact .inl (.inl kernel)
      · rcases List.mem_append.mp among with old | last
        · exact .inl (.inr (.inl ⟨other, old, pointed⟩))
        · obtain rfl := List.mem_singleton.mp last
          exact .inr (pointed.trans loaded.switch)
      · exact .inl (.inr (.inr pushed))
    · rcases held with (kernel | ⟨other, among, pointed⟩ | pushed) | new
      · exact .inl kernel
      · exact .inr (.inl ⟨other, List.mem_append_left _ among, pointed⟩)
      · exact .inr (.inr pushed)
      · exact .inr (.inl ⟨process, List.mem_append_right _ List.mem_cons_self, new.trans loaded.switch.symm⟩)
  obtain ⟨place, owned⟩ := live.heap
  refine ⟨by rw [same]; exact live.valid, ?_, ?_, live.first, fun other member => ?_, fun other member =>
    ?_, by rw [same]; exact live.current, place, heapOwned_grows entered.owners owned⟩
  · change Sane initial (liveSpaces root table { system with kernel, loaded := system.loaded ++ [process] }) _ _
    rw [spaces]
    exact loaded.sound
  · change Opened (liveSpaces root table { system with kernel, loaded := system.loaded ++ [process] }) _
    rw [spaces]
    exact loaded.opened live.opened
  · dsimp only at member
    rcases member with new | old
    · rcases List.mem_append.mp new with old | last
      · exact live.homes other (.inl old)
      · obtain rfl := List.mem_singleton.mp last
        rw [loaded.switch, home]
    · exact live.homes other (.inr old)
  · dsimp only at member
    rcases member with new | old
    · rcases List.mem_append.mp new with old | last
      · exact live.others other (.inl old)
      · obtain rfl := List.mem_singleton.mp last
        rw [loaded.switch]
        exact fun clash => loaded.new (clash ▸ .inl rfl)
    · exact live.others other (.inr old)

theorem push (live : Live initial root table system) {owner : Pmm} (owned : Owned owner table system)
    {index : Nat} {arguments : Arguments} {call : HeapCall} (ran : system.push index arguments call = .ok after) :
    ∃ list, Live initial root list after := by
  unfold System.push at ran
  split at ran
  next => cases ran
  next process taken =>
    obtain ⟨⟨answer, kernel⟩, growing, ran⟩ := bind_ok ran
    obtain ⟨pushed, pushing, rest⟩ := bind_ok ran
    obtain rfl := Except.ok.inj rest
    obtain ⟨took, same⟩ := growVec_took live.sound (live.homed live.current) growing
    have live := live.grow took same
    obtain ⟨valid, current⟩ := live.valid.push_arguments pushing
    have among := List.mem_of_getElem? taken
    have order {other : Process} : other ∈ system.loaded ↔ other = process ∨ other ∈ system.loaded.eraseIdx index := by
      obtain ⟨inside, rfl⟩ := List.getElem?_eq_some_iff.mp taken
      rw [← (List.getElem_cons_eraseIdx_perm inside).mem_iff, List.mem_cons]
    have fresh : table.length ∉ system.torn := fun torn => absurd (owned.below (List.mem_cons_of_mem 0 torn))
      (Nat.lt_irrefl _)
    generalize placed : { process with pid := table.length, regs := arguments.load process.regs } = entry at valid
    have pml : entry.pml = process.pml := by rw [← placed]
    have cases' {pid : Nat} {other : Process} (found : (table ++ [entry])[pid]? = some other) :
        table[pid]? = some other ∨ pid = table.length ∧ other = entry := by
      by_cases inside : pid < table.length
      · rw [List.getElem?_append_left inside] at found
        exact .inl found
      · rw [List.getElem?_append_right (by omega)] at found
        obtain ⟨only, rfl⟩ := List.getElem?_eq_some_iff.mp found
        rw [List.length_singleton] at only
        exact .inr ⟨by omega, List.getElem_singleton _⟩
    have spaces : liveSpaces root (table ++ [entry]) ⟨⟨pushed, kernel.vm⟩, system.loaded.eraseIdx index,
      system.cursor, system.blocks, system.torn⟩ =
        liveSpaces root table system := by
      funext space
      refine propext ⟨fun held => ?_, fun held => ?_⟩
      · rcases held with first | ⟨other, left, pointed⟩ | ⟨pid, other, alive, found, pointed⟩
        · exact .inl first
        · exact .inr (.inl ⟨other, order.mpr (.inr left), pointed⟩)
        · rcases cases' found with old | ⟨-, rfl⟩
          · exact .inr (.inr ⟨pid, other, alive, old, pointed⟩)
          · exact .inr (.inl ⟨process, among, pointed.trans (congrArg vmmSwitchSpace pml)⟩)
      · rcases held with first | ⟨other, member, pointed⟩ | ⟨pid, other, alive, found, pointed⟩
        · exact .inl first
        · rcases order.mp member with rfl | left
          · exact .inr (.inr ⟨table.length, entry, fresh, by simp, pointed.trans (congrArg vmmSwitchSpace pml.symm)⟩)
          · exact .inr (.inl ⟨other, left, pointed⟩)
        · refine .inr (.inr ⟨pid, other, alive, ?_, pointed⟩)
          rw [List.getElem?_append_left (List.getElem?_eq_some_iff.mp found).1, found]
    have homed := live.homes process (.inl among)
    refine ⟨_, valid, by rw [spaces]; exact live.sound, by rw [spaces]; exact live.opened, fun other found =>
      ?_, fun other member => ?_, fun other member => ?_, by rw [current]; exact live.current, live.heap⟩
    · rcases cases' found with old | ⟨empty, -⟩
      · exact live.first other old
      · exact absurd live.valid.current (by omega)
    · rcases member with left | member
      · exact live.homes other (.inl (order.mpr (.inr left)))
      · rcases List.mem_append.mp member with old | last
        · exact live.homes other (.inr old)
        · obtain rfl := List.mem_singleton.mp last
          rw [pml]
          exact homed
    · rcases member with left | ⟨pid, nonzero, found⟩
      · exact live.others other (.inl (order.mpr (.inr left)))
      · rcases cases' found with old | ⟨-, rfl⟩
        · exact live.others other (.inr ⟨pid, nonzero, old⟩)
        · rw [pml]
          exact live.others process (.inl among)

/-- A message stored in the mailbox of a process, moved to a larger block if it was full. -/
theorem deliver (live : Live initial root table system) {middle : System} {pid : Nat} {target : Process}
    {call : HeapCall} {answer : Option Nat} {sched : Sched} {mailbox : Vec Ipc}
    (found : table[pid]? = some target) (expanded : system.expand target.mailbox call = .ok (answer, middle))
    (valid : Table sched (table.set pid { target with mailbox }))
    (current : sched.currentPid = system.kernel.sched.currentPid) :
    Live initial root (table.set pid { target with mailbox })
      { middle with kernel := { middle.kernel with sched } } := by
  obtain ⟨kernel, growing, rest⟩ := System.expand_ok expanded
  obtain ⟨took, same⟩ := growVec_took live.sound (live.homed live.current) growing
  have next := (live.grow took same).set found valid rfl (by rw [current]; exact live.current)
  rcases rest with ⟨-, rfl⟩ | ⟨pointer, -, -, -, rfl⟩
  · exact next
  · exact ⟨next.valid, next.sound, next.opened, next.first, next.homes, next.others, next.current, next.heap⟩

theorem send (live : Live initial root table system) {msg : Ipc} {call : HeapCall}
    (ran : system.send msg call = .ok after) : ∃ list, Live initial root list after := by
  obtain ⟨⟨⟩, -, ran⟩ := bind_ok ran
  obtain ⟨found, asked, ran⟩ := bind_ok ran
  cases found with
  | none => cases ran
  | some proc =>
    obtain ⟨rfl, target, found, -⟩ := live.valid.by_pid asked
    obtain ⟨same, loaded, ran⟩ := bind_ok ran
    have inside := (List.getElem?_eq_some_iff.mp found).1
    obtain rfl : target = same := Option.some.inj (found.symm.trans (live.valid.get loaded inside))
    obtain ⟨⟨answer, middle⟩, expanded, ran⟩ := bind_ok ran
    obtain ⟨⟨filled, sched⟩, sent, rest⟩ := bind_ok ran
    obtain rfl := Except.ok.inj rest
    rw [System.expand_sched live.sound.ledger expanded] at sent
    obtain ⟨again, mailbox, found', -, -, valid⟩ := live.valid.send_pushed sent
    obtain rfl := Option.some.inj (found.symm.trans found')
    exact ⟨_, live.deliver found expanded valid (syscallIpcsend_current sent)⟩

theorem receive (live : Live initial root table system) {sync : Bool} (ran : system.receive sync = .ok after) :
    ∃ list, Live initial root list after := by
  obtain ⟨⟨⟩, -, ran⟩ := bind_ok ran
  obtain ⟨⟨got, sched⟩, called, rest⟩ := bind_ok ran
  obtain rfl := Except.ok.inj rest
  have valid := live.valid
  have current := live.current
  cases sync with
  | true =>
    have rests : Table (forceYield system.kernel.sched) table := ⟨valid.shows, valid.pids, valid.last, valid.current⟩
    rcases valid.receive_taken called with ⟨-, rfl⟩ | ⟨msg, process, mailbox, -, found, -, valid, same⟩
    · exact ⟨_, live.sched rests current⟩
    · exact ⟨_, live.set found valid rfl (by rwa [same])⟩
  | false =>
    rcases valid.receive_taken called with ⟨-, rfl⟩ | ⟨msg, process, mailbox, -, found, -, valid, same⟩
    · exact ⟨_, live.sched valid current⟩
    · exact ⟨_, live.set found valid rfl (by rwa [same])⟩

theorem exit (live : Live initial root table system) {rbx : Nat} (ran : system.act (.exit rbx) = .ok after) :
    ∃ list, Live initial root list after := by
  obtain ⟨⟨⟩, -, ran⟩ := bind_ok ran
  obtain ⟨sched, exited, rest⟩ := bind_ok ran
  obtain rfl := Except.ok.inj rest
  obtain ⟨process, found, valid, same⟩ := live.valid.exit exited
  exact ⟨_, live.set found valid rfl (by rw [same]; exact live.current)⟩

/-- Nobody switches to a process that was torn down: it is not running. -/
theorem tick (live : Live initial root table system) {owner : Pmm} (owned : Owned owner table system) {regs : Registers}
    (ran : system.act (.tick regs) = .ok after) : ∃ list, Live initial root list after := by
  obtain ⟨⟨installed, sched⟩, yielded, rest⟩ := bind_ok ran
  obtain rfl := Except.ok.inj rest
  rcases live.valid.yield yielded with ⟨valid, same⟩ | ⟨process, found, valid, next, chosen, running⟩
  · exact ⟨_, live.sched valid (by rw [same]; exact live.current)⟩
  · exact ⟨_, live.set found valid rfl (owned.apart chosen running)⟩

/-- No process that is left has the space of the one that is torn down. -/
theorem alone (live : Live initial root table system) {owner : Pmm} (owned : Owned owner table system)
    {process : Process} (found : table[system.cursor]? = some process) (user : system.cursor ∉ 0 :: system.torn)
    {kernel : Kernel} {blocks : List Nat} :
    ¬ liveSpaces root table ⟨kernel, system.loaded, system.cursor + 1, blocks, system.cursor :: system.torn⟩
      (vmmSwitchSpace process.pml) := by
  have nonzero : system.cursor ≠ 0 := fun zero => user (by simp [zero])
  have held := (List.Perm.swap _ _ _).subperm.trans (owned.frames_split found user)
  have entry := held.subset List.mem_cons_self
  have left := Holdings.give_back held
  have page : vmmSwitchSpace process.pml / 4096 ∈ (rootEntry process).2.pages := by
    apply Range.mem_pages.mpr
    simp only [rootEntry, pageSize]
    omega
  -- another claim on the same PML4 would stand beside it in the ledger
  have other {another : Process} (claimed : rootEntry another ∈ frameClaims { system with torn := system.cursor :: system.torn } table)
      (same : vmmSwitchSpace process.pml = vmmSwitchSpace another.pml) : False := by
    have member := left.subset (List.mem_cons_of_mem _ claimed)
    have clash : rootEntry another = rootEntry process := by
      unfold rootEntry
      rw [same]
    rw [clash] at member
    exact owned.ledger.apart (List.perm_cons_erase entry) member page page
  intro held
  rcases held with first | ⟨another, among, same⟩ | ⟨pid, another, alive, here, same⟩
  · exact live.others process (.inr ⟨_, nonzero, found⟩) first
  · refine other (List.mem_append_left _ (List.mem_flatMap.mpr ⟨another, among, ?_⟩)) same
    simp [resources, rootEntry]
  · by_cases zero : pid = 0
    · subst zero
      exact live.others process (.inr ⟨_, nonzero, found⟩) (same.trans (live.first another here))
    · refine other (List.mem_append_right _ (List.mem_flatMap.mpr ⟨pid, ?_, ?_⟩)) same
      · exact List.mem_range.mpr (List.getElem?_eq_some_iff.mp here).1
      · rw [standing_at here (by simp only [List.mem_cons, not_or] at alive ⊢; exact ⟨zero, alive⟩)]
        simp [resources, rootEntry]

theorem tearDown (live : Live initial root table system) {owner : Pmm} (owned : Owned owner table system)
    {process : Process} {bstack mailbox : HeapCall} {kernel : Kernel} {blocks : List Nat}
    (found : table[system.cursor]? = some process) (waiting : process.state = .waitingForDeath)
    (visit : system.cursor ∉ system.torn) (kernelRuns : system.kernel.sched.currentPid = 0)
    (ran : reap system.kernel process bstack mailbox = .ok kernel) :
    Live initial root table ⟨kernel, system.loaded, system.cursor + 1, blocks, system.cursor :: system.torn⟩ := by
  have user : system.cursor ∉ 0 :: system.torn := by
    intro member
    rcases List.mem_cons.mp member with zero | torn
    · obtain ⟨kernel, start, alive⟩ := owned.kernel
      rw [zero, start] at found
      obtain rfl := Option.some.inj found
      rw [alive] at waiting
      cases waiting
    · exact visit torn
  obtain ⟨reaped, -, same, -⟩ := reap_ok owned.ledger (owned.frames_split found user) ran
  have less (space : Nat) (left : liveSpaces root table ⟨kernel, system.loaded, system.cursor + 1, blocks,
    system.cursor :: system.torn⟩ space) :
      liveSpaces root table system space := by
    rcases left with kernel | loaded | ⟨pid, other, alive, rest⟩
    · exact .inl kernel
    · exact .inr (.inl loaded)
    · exact .inr (.inr ⟨pid, other, fun torn => alive (List.mem_cons_of_mem _ torn), rest⟩)
  have current : system.kernel.sched.currentPid ∉ system.cursor :: system.torn := by
    intro member
    rcases List.mem_cons.mp member with clash | torn
    · exact user (by rw [← clash, kernelRuns]; exact List.mem_cons_self)
    · exact live.current torn
  have home := live.homes process (.inr (List.mem_of_getElem? found))
  obtain ⟨sound, opened⟩ := reap_sane live.sound live.opened (live.homed live.current) reaped.stack
    (List.mem_of_mem_erase reaped.root)
    less (.inl rfl) (.inr (.inr ⟨_, process, visit, found, rfl⟩)) (live.alone owned found user) home
      (live.homed current) ran
  refine ⟨by rw [same]; exact live.valid, sound, opened, live.first, live.homes, live.others,
    by rw [same]; exact current, ?_⟩
  obtain ⟨place, heap⟩ := live.heap
  obtain ⟨entry, member, holds⟩ := List.any_eq_true.mp heap
  refine ⟨place, List.any_eq_true.mpr ⟨entry, ?_, holds⟩⟩
  simp only [Bool.and_eq_true, beq_iff_eq] at holds
  have heap := holds.1.1
  rw [reaped.left]
  refine (List.mem_erase_of_ne ?_).mpr ((List.mem_erase_of_ne ?_).mpr member)
  · rintro rfl
    cases heap
  · rintro rfl
    cases heap

theorem slay (live : Live initial root table system) {owner : Pmm} (owned : Owned owner table system)
    {bstack mailbox : HeapCall} (first : FirstVisit system (.slay bstack mailbox))
    (ran : system.slay bstack mailbox = .ok after) :
    Live initial root table after := by
  obtain ⟨⟨⟩, kernelRuns, ran⟩ := bind_ok ran
  obtain ⟨found, due, ran⟩ := bind_ok ran
  have here := owned.due_ok due
  cases found with
  | none =>
    obtain rfl := Except.ok.inj ran
    exact ⟨live.valid, live.sound, live.opened, live.first, live.homes, live.others, live.current, live.heap⟩
  | some process =>
    dsimp only at ran
    split at ran
    next waiting =>
      obtain ⟨middle, tearing, rest⟩ := bind_ok ran
      obtain rfl := Except.ok.inj rest
      obtain ⟨kernel, reaping, rest⟩ := bind_ok tearing
      obtain rfl := Except.ok.inj rest
      have visit := first process ⟨⟨bstack, mailbox, rfl⟩, due, waiting⟩
      exact live.tearDown owned here.symm waiting visit (check_ok kernelRuns) reaping
    next =>
      obtain rfl := Except.ok.inj ran
      exact ⟨live.valid, live.sound, live.opened, live.first, live.homes, live.others, live.current, live.heap⟩

theorem has (live : Live initial root table system) (process : Process) :
    system.Has process ↔ process ∈ system.loaded ∨ ∃ pid, pid ∉ system.torn ∧ table[pid]? = some process := by
  have shows := live.valid.shows
  refine or_congr_right (exists_congr fun pid => and_congr_right fun _ => ⟨fun ⟨inside, got⟩ => ?_, fun found => ?_⟩)
  · exact shows.get_ok got (shows.length ▸ inside)
  · exact ⟨shows.length ▸ (List.getElem?_eq_some_iff.mp found).1, shows.get_some found⟩

theorem space (live : Live initial root table system) : liveSpaces root table system = system.Space := by
  have kernel : vmmSwitchSpace system.kernel.vm.kernelPml4 = root := by
    rw [live.sound.own.pml4]
    exact phys_io _ (live.sound.spaces.aligned root (.inl rfl)).2
  funext space
  unfold System.Space
  rw [kernel]
  refine propext (or_congr_right ⟨fun held => ?_, fun ⟨process, has, same⟩ => ?_⟩)
  · rcases held with ⟨process, loaded, same⟩ | ⟨pid, process, alive, found, same⟩
    · exact ⟨process, .inl loaded, same⟩
    · exact ⟨process, (live.has process).mpr (.inr ⟨pid, alive, found⟩), same⟩
  · rcases (live.has process).mp has with loaded | ⟨pid, alive, found⟩
    · exact .inl ⟨process, loaded, same⟩
    · exact .inr ⟨pid, process, alive, found, same⟩

theorem act (live : Live initial root table system) {owner : Pmm} (owned : Owned owner table system)
    {action : SystemAction} (orderly : Orderly system action) (ran : system.act action = .ok after) :
    ∃ list, Live initial root list after := by
  cases action with
  | load elf block bstack =>
    obtain ⟨placed, fits, present⟩ := orderly.load elf block bstack rfl
    rw [← live.space] at placed
    exact ⟨_, live.load placed fits present ran⟩
  | push index arguments call => exact live.push owned ran
  | tick regs => exact live.tick owned ran
  | send msg call => exact live.send ran
  | receive sync => exact live.receive ran
  | exit rbx => exact live.exit ran
  | slay bstack mailbox => exact ⟨_, live.slay owned orderly.visit ran⟩

end Live

namespace Paging.Started

variable {initial : Pmm} {root : Nat} {system : System}

theorem spaces (started : Started initial root system) :
    liveSpaces root [{ Process.zero with pid := 0, state := .running, pml := mmapPhysToIo root }] system =
      (· = root) := by
  funext space
  refine propext ⟨fun held => ?_, .inl⟩
  rcases held with same | ⟨process, among, -⟩ | ⟨pid, process, -, found, same⟩
  · exact same
  · rw [started.loaded] at among
    cases among
  · obtain rfl := List.mem_singleton.mp (List.mem_of_getElem? found)
    exact same.trans (phys_io _ (started.sound.spaces.aligned root rfl).2)

theorem live (started : Started initial root system) :
    Live initial root [{ Process.zero with pid := 0, state := .running, pml := mmapPhysToIo root }] system := by
  have switch : vmmSwitchSpace (mmapPhysToIo root) = root := phys_io _ (started.sound.spaces.aligned root rfl).2
  refine ⟨started.table, by rw [started.spaces]; exact started.sound, by rw [started.spaces]; exact started.opened,
    fun process found => ?_, fun process member => ?_, fun process member => ?_, ?_, started.heap⟩
  · obtain rfl := List.mem_singleton.mp (List.mem_of_getElem? found)
    exact switch
  · rcases member with among | member
    · rw [started.loaded] at among
      cases among
    · obtain rfl := List.mem_singleton.mp member
      exact congrArg mmapPhysToIo switch.symm
  · rcases member with among | ⟨pid, nonzero, found⟩
    · rw [started.loaded] at among
      cases among
    · have inside := (List.getElem?_eq_some_iff.mp found).1
      exact absurd (Nat.lt_one_iff.mp inside) nonzero
  · rw [started.torn]
    exact List.not_mem_nil

theorem space (started : Started initial root system) : system.Space = (· = root) :=
  started.live.space.symm.trans started.spaces

end Paging.Started

theorem Table.unique {sched : Sched} {table list : List Process} (first : Table sched table)
    (last : Table sched list) : table = list := by
  have length : table.length = list.length := first.shows.length.symm.trans last.shows.length
  apply List.ext_getElem?
  intro index
  by_cases inside : index < table.length
  · rw [← first.shows.data index inside, last.shows.data index (length ▸ inside)]
  · rw [List.getElem?_eq_none (by omega), List.getElem?_eq_none (by omega)]

theorem run_live {system : System} (run : System.Run Orderly system) :
    ∃ initial owner root table, Live initial root table system ∧ Owned owner table system := by
  induction run with
  | boot fits ran =>
    obtain ⟨initial, root, started⟩ := boot_took fits ran
    obtain ⟨owner, list, owned⟩ := boot_owned fits ran
    obtain rfl := owned.valid.unique started.table
    exact ⟨initial, owner, root, _, started.live, owned⟩
  | step before orderly ran ih =>
    obtain ⟨initial, owner, root, table, live, owned⟩ := ih
    obtain ⟨list, live⟩ := live.act owned orderly ran
    obtain ⟨⟨list', owned⟩, -⟩ := owned.act orderly.visit ran
    obtain rfl := owned.valid.unique live.valid
    exact ⟨initial, owner, root, _, live, owned⟩

end Navy
