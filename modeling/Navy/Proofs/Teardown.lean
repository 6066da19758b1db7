import Navy.Library.Holdings
import Navy.Proofs.FirstProcess
import Navy.Proofs.Messages
import Navy.Proofs.Switching

/-! Who owns what over whole runs. Each process owns its user stack, its PML4,
its kernel stack and its mailbox, and while no process is torn down twice nobody
else owns them too. -/

namespace Navy
open Outcome Paging Holdings

/-- The frames a process owns until it is torn down. -/
def resources (process : Process) : List (Owner × Range) :=
  [(.stack process.pml, process.stack), (.root, ⟨vmmSwitchSpace process.pml, pageSize⟩)]

/-- A pointer as a claim on the heap. -/
def keep (pointer : Nat) : List Nat := if pointer = 0 then [] else [pointer]

/-- The heap blocks a process owns until it is torn down. -/
def pointers (process : Process) : List Nat := keep process.syscallKernelBstack ++ keep process.mailbox.pointer

/-- What the process at an index still owns. -/
def standing {E : Type} (view : Process → List E) (gone : List Nat) (table : List Process) (index : Nat) : List E :=
  if index ∈ gone then [] else
    match table[index]? with
    | some process => view process
    | none => []

theorem keep_of_pos {pointer : Nat} (present : pointer ≠ 0) : keep pointer = [pointer] := if_neg present

theorem exchange {old pointer : Nat} {rest blocks : List Nat} (held : List.Subperm (keep old ++ rest) blocks)
    (null : 0 ∉ blocks) (present : pointer ≠ 0) (fresh : pointer ∉ blocks) :
    List.Subperm (keep pointer ++ rest) ((pointer :: blocks).erase old) := by
  rw [keep_of_pos present, List.singleton_append]
  by_cases first : old = 0
  · subst first
    rw [List.erase_of_not_mem (by simp [null, Ne.symm present])]
    exact (List.subperm_cons pointer).mpr held
  · rw [keep_of_pos first, List.singleton_append] at held
    have different : pointer ≠ old := fun same => fresh (same ▸ held.subset (by simp))
    rw [List.erase_cons_tail (by simpa using different), List.subperm_cons]
    exact give_back held

section Standing

variable {E : Type} {view : Process → List E} {gone : List Nat} {table : List Process} {index : Nat}
  {process changed : Process}

theorem standing_at (found : table[index]? = some process) (here : index ∉ gone) :
    standing view gone table index = view process := by
  simp only [standing, if_neg here, found]

/-- Changing a process changes at most its own claim. -/
theorem standing_set (place : Nat) (apart : place ≠ index) :
    standing view gone (table.set index changed) place = standing view gone table place := by
  simp only [standing, List.getElem?_set_ne (Ne.symm apart)]

theorem standing_same (found : table[index]? = some process) (same : view changed = view process) :
    standing view gone (table.set index changed) = standing view gone table := by
  funext place
  by_cases here : place = index
  · subst here
    have inside := (List.getElem?_eq_some_iff.mp found).1
    simp only [standing, List.getElem?_set_self inside, found, same]
  · exact standing_set place here

theorem standing_push (before : ∀ pid ∈ gone, pid < table.length) :
    claims (standing view gone (table ++ [process])) (table ++ [process]).length =
      claims (standing view gone table) table.length ++ view process := by
  have new : table.length ∉ gone := fun member => absurd (before _ member) (Nat.lt_irrefl _)
  have last : (table ++ [process])[table.length]? = some process := by simp
  rw [List.length_append, List.length_singleton, claims_succ, standing_at last new]
  congr 1
  refine claims_congr fun place inside => ?_
  simp only [standing, List.getElem?_append_left inside]

theorem standing_gone : standing view (index :: gone) table = Function.update (standing view gone table) index [] := by
  funext place
  by_cases here : place = index
  · subst here
    simp [standing]
  · rw [Function.update_of_ne here]
    simp [standing, here]

end Standing

/-- The frames claimed by all processes; the kernel's own stays. -/
def frameClaims (system : System) (table : List Process) : List (Owner × Range) :=
  system.loaded.flatMap resources ++ claims (standing resources (0 :: system.torn) table) table.length

def blockClaims (system : System) (table : List Process) : List Nat :=
  system.loaded.flatMap pointers ++ claims (standing pointers system.torn table) table.length

/-- Growing a mailbox, if it is full, and what becomes of its old block. -/
theorem System.expand_ok {system after : System} {mailbox : Vec Ipc} {call : HeapCall} {answer : Option Nat}
    (ran : system.expand mailbox call = .ok (answer, after)) :
    ∃ kernel, growVec system.kernel mailbox ipcSize call = .ok (answer, kernel) ∧
      (answer = none ∧ after = { system with kernel } ∨ ∃ pointer, answer = some pointer ∧ pointer ≠ 0 ∧
        pointer ∉ system.blocks ∧
        after = { system with kernel, blocks := (pointer :: system.blocks).erase mailbox.pointer }) := by
  obtain ⟨⟨reply, kernel⟩, growing, ran⟩ := bind_ok ran
  cases reply with
  | none =>
    obtain ⟨rfl, rfl⟩ := Prod.mk.inj (Except.ok.inj ran)
    exact ⟨kernel, growing, .inl ⟨rfl, rfl⟩⟩
  | some pointer =>
    obtain ⟨larger, taken, rest⟩ := bind_ok ran
    obtain ⟨rfl, rfl⟩ := Prod.mk.inj (Except.ok.inj rest)
    obtain ⟨⟨⟩, fresh, rest⟩ := bind_ok taken
    obtain rfl := Except.ok.inj rest
    obtain ⟨present, new⟩ := check_ok fresh
    exact ⟨kernel, growing, .inr ⟨pointer, rfl, present, new, rfl⟩⟩

theorem System.expand_sched {initial : Pmm} {system after : System} {mailbox : Vec Ipc} {call : HeapCall}
    {answer : Option Nat} (ledger : Ledger initial system.kernel.vm)
    (ran : system.expand mailbox call = .ok (answer, after)) :
    after.kernel.sched = system.kernel.sched := by
  obtain ⟨kernel, growing, rest⟩ := System.expand_ok ran
  have same := (growVec_enters ledger growing).1.2
  rcases rest with ⟨-, rfl⟩ | ⟨pointer, -, -, -, rfl⟩
  · exact same
  · exact same

/-- What holds in every state of a run in which no process is torn down twice. -/
structure Owned (initial : Pmm) (table : List Process) (system : System) : Prop where
  valid : Table system.kernel.sched table
  ledger : Ledger initial system.kernel.vm
  frames : List.Subperm (frameClaims system table) system.kernel.vm.owners
  blocks : List.Subperm (blockClaims system table) system.blocks
  null : 0 ∉ system.blocks
  kernel : ∃ first, table[0]? = some first ∧ first.state = .running
  torn : ∀ pid ∈ system.torn, ∃ process, table[pid]? = some process ∧ process.state = .waitingForDeath

namespace Owned

variable {initial : Pmm} {table : List Process} {system : System}

theorem below (owned : Owned initial table system) {pid : Nat} (member : pid ∈ 0 :: system.torn) :
    pid < table.length := by
  rcases List.mem_cons.mp member with rfl | member
  · obtain ⟨first, found, -⟩ := owned.kernel
    exact (List.getElem?_eq_some_iff.mp found).1
  · obtain ⟨process, found, -⟩ := owned.torn pid member
    exact (List.getElem?_eq_some_iff.mp found).1

theorem apart (owned : Owned initial table system) {pid : Nat} {process : Process} (found : table[pid]? = some process)
    (alive : process.state = .running) : pid ∉ system.torn := by
  intro member
  obtain ⟨dead, same, waiting⟩ := owned.torn pid member
  obtain rfl := Option.some.inj (same.symm.trans found)
  rw [waiting] at alive
  cases alive

theorem change (owned : Owned initial table system) {sched : Sched} {pid : Nat} {process changed : Process}
    (found : table[pid]? = some process) (valid : Table sched (table.set pid changed))
    (frames : resources changed = resources process)
    (state : changed.state = process.state ∨ pid ≠ 0 ∧ changed.state = .waitingForDeath) {blocks : List Nat}
    (claim : List.Subperm (blockClaims system (table.set pid changed)) blocks) (null : 0 ∉ blocks) :
    Owned initial (table.set pid changed) { system with kernel := { system.kernel with sched }, blocks } := by
  have inside := (List.getElem?_eq_some_iff.mp found).1
  refine ⟨valid, owned.ledger, ?_, claim, null, ?_, fun place member => ?_⟩
  · unfold frameClaims
    rw [standing_same found frames, List.length_set]
    exact owned.frames
  · obtain ⟨first, here, alive⟩ := owned.kernel
    by_cases same : pid = 0
    · subst same
      obtain rfl := Option.some.inj (here.symm.trans found)
      refine ⟨changed, List.getElem?_set_self inside, ?_⟩
      rcases state with same | ⟨different, -⟩
      · exact same.trans alive
      · exact absurd rfl different
    · exact ⟨first, by rwa [List.getElem?_set_ne same], alive⟩
  · obtain ⟨dead, here, waiting⟩ := owned.torn place member
    by_cases same : pid = place
    · subst same
      obtain rfl := Option.some.inj (here.symm.trans found)
      refine ⟨changed, List.getElem?_set_self inside, ?_⟩
      rcases state with same | ⟨-, dying⟩
      · exact same.trans waiting
      · exact dying
    · exact ⟨dead, by rwa [List.getElem?_set_ne same], waiting⟩

theorem set (owned : Owned initial table system) {sched : Sched} {pid : Nat} {process changed : Process}
    (found : table[pid]? = some process) (valid : Table sched (table.set pid changed))
    (frames : resources changed = resources process) (blocks : pointers changed = pointers process)
    (state : changed.state = process.state ∨ pid ≠ 0 ∧ changed.state = .waitingForDeath) :
    Owned initial (table.set pid changed) { system with kernel := { system.kernel with sched } } := by
  refine owned.change found valid frames state ?_ owned.null
  unfold blockClaims
  rw [standing_same found blocks, List.length_set]
  exact owned.blocks

/-- The blocks claimed, those of one process first. -/
theorem blocks_split (system : System) {table : List Process} {pid : Nat} {process : Process}
    (found : table[pid]? = some process) (here : pid ∉ system.torn) : (blockClaims system table).Perm
      (keep process.mailbox.pointer ++ (keep process.syscallKernelBstack ++ (system.loaded.flatMap pointers ++
        claims (Function.update (standing pointers system.torn table) pid []) table.length))) := by
  have inside := (List.getElem?_eq_some_iff.mp found).1
  have split := claims_split (standing pointers system.torn table) inside
  rw [standing_at found here] at split
  refine (split.append_left _).trans ?_
  rw [List.perm_iff_count]
  intro pointer
  simp only [List.count_append, pointers]
  omega

theorem sched (owned : Owned initial table system) {sched : Sched} (valid : Table sched table) :
    Owned initial table { system with kernel := { system.kernel with sched } } :=
  ⟨valid, owned.ledger, owned.frames, owned.blocks, owned.null, owned.kernel, owned.torn⟩

theorem grow (owned : Owned initial table system) {kernel : Kernel} {kind : Owner → Prop}
    (enters : Enters kind system.kernel.vm kernel.vm) (same : kernel.sched = system.kernel.sched) :
    Owned initial table { system with kernel } := by
  obtain ⟨added, entered⟩ := enters
  refine ⟨by rw [same]; exact owned.valid, entered.ledger owned.ledger, ?_, owned.blocks, owned.null,
    owned.kernel, owned.torn⟩
  dsimp only
  rw [entered.owners]
  exact owned.frames.trans (List.sublist_append_right _ _).subperm

theorem load (owned : Owned initial table system) {elf : Range} {block bstack : HeapCall} {after : System}
    (ran : system.load elf block bstack = .ok after) : Owned initial table after := by
  obtain ⟨⟨process, kernel⟩, loading, ran⟩ := bind_ok ran
  obtain ⟨⟨⟩, fresh, rest⟩ := bind_ok ran
  obtain rfl := Except.ok.inj rest
  obtain ⟨nonnull, new⟩ := check_ok fresh
  obtain ⟨enters, same, entries, -, rip, shape⟩ := loadElfModule_made owned.ledger loading
  have valid := owned.valid
  rw [← same] at valid
  have claim : pointers process = [bstack.pointer] := by
    rw [shape]
    simp [pointers, keep, newTask, Process.zero, vecInit, nonnull]
  refine ⟨valid, enters.ledger owned.ledger, ?_, ?_, ?_, owned.kernel, owned.torn⟩
  · have more := (List.subperm_append_left (resources process)).mpr owned.frames
    refine List.Subperm.trans (List.Perm.subperm ?_) (more.trans entries)
    simp only [frameClaims, List.flatMap_append, List.flatMap_cons, List.flatMap_nil, List.append_nil]
    rw [List.perm_iff_count]
    intro entry
    simp only [List.count_append]
    omega
  · have more := (List.subperm_cons bstack.pointer).mpr owned.blocks
    refine List.Subperm.trans (List.Perm.subperm ?_) more
    simp only [blockClaims, List.flatMap_append, List.flatMap_cons, List.flatMap_nil, List.append_nil, claim]
    rw [List.perm_iff_count]
    intro pointer
    simp only [List.count_append, List.count_cons, List.count_nil]
    omega
  · simp only [List.mem_cons, not_or]
    exact ⟨Ne.symm nonnull, owned.null⟩

theorem push (owned : Owned initial table system) {index : Nat} {arguments : Arguments} {call : HeapCall}
    {after : System} (ran : system.push index arguments call = .ok after) :
    ∃ list, Owned initial list after := by
  unfold System.push at ran
  split at ran
  next => cases ran
  next process taken =>
    obtain ⟨⟨answer, kernel⟩, growing, ran⟩ := bind_ok ran
    obtain ⟨pushed, pushing, rest⟩ := bind_ok ran
    obtain rfl := Except.ok.inj rest
    obtain ⟨inside, rfl⟩ := List.getElem?_eq_some_iff.mp taken
    obtain ⟨grown, -⟩ := growVec_enters owned.ledger growing
    have owned := owned.grow grown.1 grown.2
    obtain ⟨valid, -⟩ := owned.valid.push_arguments pushing
    have order (E : Type) (view : Process → List E) :
        (system.loaded.flatMap view).Perm
          (view system.loaded[index] ++ (system.loaded.eraseIdx index).flatMap view) := by
      have taken := (List.getElem_cons_eraseIdx_perm inside).symm.flatMap_right view
      rwa [List.flatMap_cons] at taken
    have tornBelow (pid : Nat) (member : pid ∈ system.torn) : pid < table.length :=
      owned.below (List.mem_cons_of_mem 0 member)
    refine ⟨_, valid, owned.ledger, ?_, ?_, owned.null, ?_, fun pid member => ?_⟩
    · refine List.Subperm.trans (List.Perm.subperm ?_) owned.frames
      unfold frameClaims
      rw [standing_push fun pid member => owned.below member]
      refine List.Perm.trans ?_ ((order _ resources).symm.append_right _)
      rw [List.perm_iff_count]
      intro entry
      simp only [List.count_append, resources]
      omega
    · refine List.Subperm.trans (List.Perm.subperm ?_) owned.blocks
      unfold blockClaims
      rw [standing_push tornBelow]
      refine List.Perm.trans ?_ ((order _ pointers).symm.append_right _)
      rw [List.perm_iff_count]
      intro entry
      simp only [List.count_append, pointers]
      omega
    · obtain ⟨first, found, alive⟩ := owned.kernel
      exact ⟨first, by rw [List.getElem?_append_left (List.getElem?_eq_some_iff.mp found).1, found], alive⟩
    · obtain ⟨dead, found, waiting⟩ := owned.torn pid member
      exact ⟨dead, by rw [List.getElem?_append_left (List.getElem?_eq_some_iff.mp found).1, found], waiting⟩

/-- A message stored in the mailbox of a running process, moved to a larger block if it was full. -/
theorem deliver (owned : Owned initial table system) {middle : System} {pid : Nat} {target : Process}
    {call : HeapCall} {answer : Option Nat} {sched : Sched} {mailbox : Vec Ipc}
    (found : table[pid]? = some target) (alive : target.state = .running)
    (expanded : system.expand target.mailbox call = .ok (answer, middle))
    (valid : Table sched (table.set pid { target with mailbox }))
    (pointer : mailbox.pointer = if target.mailbox.length + 1 > target.mailbox.capacity then answer.getD 0
      else target.mailbox.pointer) :
    Owned initial (table.set pid { target with mailbox }) { middle with kernel := { middle.kernel with sched } } := by
  obtain ⟨kernel, growing, rest⟩ := System.expand_ok expanded
  obtain ⟨⟨enters, same⟩, grown⟩ := growVec_enters owned.ledger growing
  have owned := owned.grow enters same
  have inside := (List.getElem?_eq_some_iff.mp found).1
  rcases rest with ⟨rfl, rfl⟩ | ⟨block, rfl, present, new, rfl⟩
  · rcases grown with ⟨-, other⟩ | ⟨fits, -⟩
    · cases other
    · rw [if_neg fits] at pointer
      refine owned.set found valid rfl ?_ (.inl rfl)
      simp only [pointers, pointer]
  · rcases grown with ⟨full, -⟩ | ⟨-, other⟩
    · rw [if_pos full] at pointer
      have here := owned.apart found alive
      have others : Function.update (standing pointers system.torn (table.set pid { target with mailbox })) pid [] =
          Function.update (standing pointers system.torn table) pid [] := by
        funext place
        by_cases same : place = pid
        · rw [same, Function.update_self, Function.update_self]
        · rw [Function.update_of_ne same, Function.update_of_ne same, standing_set place same]
      have before := (blocks_split _ found here).symm.subperm.trans owned.blocks
      have after := blocks_split { system with kernel }
        (List.getElem?_set_self (a := { target with mailbox }) inside) here
      rw [others, List.length_set] at after
      refine owned.change found valid rfl (.inl rfl) ?_ ?_
      · refine after.subperm.trans ?_
        dsimp only
        rw [pointer]
        exact exchange before owned.null present new
      · exact fun member => absurd (List.mem_of_mem_erase member) (by simp [owned.null, Ne.symm present])
    · cases other

theorem send (owned : Owned initial table system) {msg : Ipc} {call : HeapCall} {after : System}
    (ran : system.send msg call = .ok after) : ∃ list, Owned initial list after := by
  obtain ⟨⟨⟩, -, ran⟩ := bind_ok ran
  obtain ⟨found, asked, ran⟩ := bind_ok ran
  cases found with
  | none => cases ran
  | some proc =>
    obtain ⟨rfl, target, found, alive⟩ := owned.valid.by_pid asked
    obtain ⟨same, loaded, ran⟩ := bind_ok ran
    have inside := (List.getElem?_eq_some_iff.mp found).1
    obtain rfl : target = same := Option.some.inj (found.symm.trans (owned.valid.get loaded inside))
    obtain ⟨⟨answer, middle⟩, expanded, ran⟩ := bind_ok ran
    obtain ⟨⟨filled, sched⟩, sent, rest⟩ := bind_ok ran
    obtain rfl := Except.ok.inj rest
    rw [System.expand_sched owned.ledger expanded] at sent
    obtain ⟨again, mailbox, found', -, pushed, valid⟩ := owned.valid.send_pushed sent
    obtain rfl := Option.some.inj (found.symm.trans found')
    exact ⟨_, owned.deliver found alive expanded valid (vecPush_pointer pushed)⟩

theorem receive (owned : Owned initial table system) {sync : Bool} {after : System}
    (ran : system.receive sync = .ok after) : ∃ list, Owned initial list after := by
  obtain ⟨⟨⟩, -, ran⟩ := bind_ok ran
  obtain ⟨⟨got, sched⟩, called, rest⟩ := bind_ok ran
  obtain rfl := Except.ok.inj rest
  have valid := owned.valid
  have cases' : Table sched table ∨ ∃ msg process mailbox, table[system.kernel.sched.currentPid]? = some process ∧
      vecPop process.mailbox = .ok (msg, mailbox) ∧
        Table sched (table.set system.kernel.sched.currentPid { process with mailbox }) := by
    cases sync with
    | true =>
      have rests : Table (forceYield system.kernel.sched) table := ⟨valid.shows, valid.pids, valid.last, valid.current⟩
      rcases valid.receive_taken called with ⟨-, rfl⟩ | ⟨msg, process, mailbox, -, found, popped, valid, -⟩
      · exact .inl rests
      · exact .inr ⟨msg, process, mailbox, found, popped, valid⟩
    | false =>
      rcases valid.receive_taken called with ⟨-, rfl⟩ | ⟨msg, process, mailbox, -, found, popped, valid, -⟩
      · exact .inl valid
      · exact .inr ⟨msg, process, mailbox, found, popped, valid⟩
  rcases cases' with valid | ⟨msg, process, mailbox, found, popped, valid⟩
  · exact ⟨_, owned.sched valid⟩
  · refine ⟨_, owned.set found valid rfl ?_ (.inl rfl)⟩
    obtain ⟨⟨⟩, -, rest⟩ := bind_ok popped
    obtain ⟨val, -, rest⟩ := bind_ok rest
    obtain ⟨-, rfl⟩ := Prod.mk.inj (Except.ok.inj rest)
    rfl

theorem exit (owned : Owned initial table system) {rbx : Nat} {after : System}
    (ran : system.act (.exit rbx) = .ok after) : ∃ list, Owned initial list after := by
  obtain ⟨⟨⟩, entered, ran⟩ := bind_ok ran
  obtain ⟨sched, exited, rest⟩ := bind_ok ran
  obtain rfl := Except.ok.inj rest
  obtain ⟨_, -, checked⟩ := bind_ok entered
  obtain ⟨-, user⟩ := check_ok checked
  obtain ⟨process, found, valid, -⟩ := owned.valid.exit exited
  exact ⟨_, owned.set found valid rfl rfl (.inr ⟨user, rfl⟩)⟩

theorem tick (owned : Owned initial table system) {regs : Registers} {after : System}
    (ran : system.act (.tick regs) = .ok after) : ∃ list, Owned initial list after := by
  obtain ⟨⟨installed, sched⟩, yielded, rest⟩ := bind_ok ran
  obtain rfl := Except.ok.inj rest
  rcases owned.valid.yield yielded with ⟨valid, -⟩ | ⟨process, found, valid, -⟩
  · exact ⟨_, owned.sched valid⟩
  · exact ⟨_, owned.set found valid rfl rfl (.inl rfl)⟩

end Owned

theorem released {pointer : Nat} {rest blocks : List Nat} (held : List.Subperm (keep pointer ++ rest) blocks)
    (null : 0 ∉ blocks) : List.Subperm rest (blocks.erase pointer) ∧ (pointer = 0 ∨ pointer ∈ blocks) := by
  by_cases first : pointer = 0
  · subst first
    rw [List.erase_of_not_mem null]
    exact ⟨held, .inl rfl⟩
  · rw [keep_of_pos first, List.singleton_append] at held
    exact ⟨give_back held, .inr (held.subset (by simp))⟩

/-- What a turn of `task_slayer` gives back was the process's, and only the
process's, until then. -/
structure Sole (system : System) (process : Process) (after : System) : Prop where
  kernelStack : process.syscallKernelBstack = 0 ∨ process.syscallKernelBstack ∈ system.blocks
  mailbox : process.mailbox.pointer = 0 ∨ process.mailbox.pointer ∈ system.blocks.erase process.syscallKernelBstack
  frames : Reaped system.kernel process after.kernel

namespace Owned

variable {initial : Pmm} {table : List Process} {system : System}

/-- The frames claimed, those of a process not torn down yet first. -/
theorem frames_split (owned : Owned initial table system) {pid : Nat} {process : Process}
    (found : table[pid]? = some process) (here : pid ∉ 0 :: system.torn) :
    List.Subperm (stackEntry process :: rootEntry process :: frameClaims
      { system with torn := pid :: system.torn } table)
      system.kernel.vm.owners := by
  have inside := (List.getElem?_eq_some_iff.mp found).1
  have split := claims_split (standing resources (0 :: system.torn) table) inside
  have gone : standing resources (0 :: pid :: system.torn) table = Function.update
    (standing resources (0 :: system.torn) table) pid [] := by
    rw [← standing_gone]
    funext place
    simp only [standing, List.mem_cons]
    congr 1
    exact propext or_left_comm
  rw [standing_at found here, ← gone] at split
  refine List.Subperm.trans (List.Perm.subperm ?_) owned.frames
  unfold frameClaims
  refine List.Perm.trans ?_ (split.symm.append_left _)
  rw [List.perm_iff_count]
  intro entry
  simp only [List.count_append, List.count_cons, resources, stackEntry, rootEntry, List.count_nil]
  omega

theorem tearDown (owned : Owned initial table system) {process : Process} {bstack mailbox : HeapCall} {after : System}
    (found : table[system.cursor]? = some process) (waiting : process.state = .waitingForDeath)
    (first : system.cursor ∉ system.torn) (ran : system.tearDown process bstack mailbox = .ok after) :
    Owned initial table after ∧ Sole system process after := by
  obtain ⟨kernel, reaping, rest⟩ := bind_ok ran
  obtain rfl := Except.ok.inj rest
  have other : system.cursor ∉ 0 :: system.torn := by
    intro member
    rcases List.mem_cons.mp member with zero | member
    · obtain ⟨kernel, here, alive⟩ := owned.kernel
      rw [zero, here] at found
      obtain rfl := Option.some.inj found
      rw [alive] at waiting
      cases waiting
    · exact first member
  obtain ⟨reaped, ledger, same, frames⟩ := reap_ok owned.ledger (owned.frames_split found other) reaping
  -- the heap blocks
  have blocks := (blocks_split _ found first).symm.subperm.trans owned.blocks
  rw [← List.append_assoc, ← List.append_assoc] at blocks
  have swap : (keep process.mailbox.pointer ++ keep process.syscallKernelBstack).Perm
      (keep process.syscallKernelBstack ++ keep process.mailbox.pointer) := List.perm_append_comm
  have order := swap.append_right (system.loaded.flatMap pointers)
  have blocks := ((order.append_right _).symm.subperm).trans blocks
  rw [List.append_assoc, List.append_assoc] at blocks
  obtain ⟨blocks, kernelStack⟩ := released blocks owned.null
  have null : 0 ∉ system.blocks.erase process.syscallKernelBstack :=
    fun member => owned.null (List.mem_of_mem_erase member)
  obtain ⟨blocks, mailbox⟩ := released blocks null
  have valid := owned.valid
  rw [← same] at valid
  refine ⟨⟨valid, ledger, frames, ?_, fun member => null (List.mem_of_mem_erase member), owned.kernel,
    fun pid member => ?_⟩, kernelStack, mailbox, reaped⟩
  · change List.Subperm (system.loaded.flatMap pointers ++ claims
      (standing pointers (system.cursor :: system.torn) table) table.length) _
    rw [standing_gone]
    exact blocks
  · rcases List.mem_cons.mp member with rfl | member
    · exact ⟨process, found, waiting⟩
    · exact owned.torn pid member

theorem due_ok (owned : Owned initial table system) {found : Option Process} (ran : system.due = .ok found) :
    found = table[system.cursor]? := by
  unfold System.due at ran
  have length := owned.valid.shows.length
  split at ran
  next inside =>
    obtain ⟨process, got, rest⟩ := bind_ok ran
    obtain rfl := Except.ok.inj rest
    exact (owned.valid.get got (by omega)).symm
  next outside =>
    obtain rfl := Except.ok.inj ran
    exact (List.getElem?_eq_none (by omega)).symm

end Owned

/-- A step of the slayer that finds a process waiting for its death. -/
structure Slain (system : System) (action : SystemAction) (process : Process) : Prop where
  slays : ∃ bstack mailbox, action = .slay bstack mailbox
  found : system.due = .ok (some process)
  waiting : process.state = .waitingForDeath

/-- No sweep comes to a process that an earlier one tore down. -/
def FirstVisit (system : System) (action : SystemAction) : Prop :=
  ∀ process, Slain system action process → system.cursor ∉ system.torn

/-- A send that moves a full mailbox gives back the block it was in. -/
def Outgrown (system : System) (action : SystemAction) (pointer : Nat) : Prop :=
  ∃ msg call target, action = .send msg call ∧ system.kernel.sched.processes.get msg.receiver = .ok target ∧
    target.mailbox.length + 1 > target.mailbox.capacity ∧ pointer = target.mailbox.pointer

/-- What a step gives back belonged to the process it was taken from. -/
structure Rightful (system : System) (action : SystemAction) (after : System) : Prop where
  slain : ∀ process, Slain system action process → Sole system process after
  outgrown : ∀ pointer, Outgrown system action pointer → pointer = 0 ∨ pointer ∈ system.blocks
  kept : (∀ process, ¬ Slain system action process) → ∀ entry ∈ system.kernel.vm.owners, entry ∈ after.kernel.vm.owners
  taken : (∀ process, ¬ Slain system action process) → ∀ page, isSetPmm system.kernel.vm.pmm page = true →
    isSetPmm after.kernel.vm.pmm page = true

namespace Owned

variable {initial : Pmm} {table : List Process} {system after : System}

theorem slay (owned : Owned initial table system) {bstack mailbox : HeapCall}
    (first : FirstVisit system (.slay bstack mailbox)) (ran : system.act (.slay bstack mailbox) = .ok after) :
    Owned initial table after ∧ Rightful system (.slay bstack mailbox) after := by
  obtain ⟨⟨⟩, -, ran⟩ := bind_ok ran
  obtain ⟨found, due, ran⟩ := bind_ok ran
  have here := owned.due_ok due
  have quiet (none : ∀ process, ¬ Slain system (.slay bstack mailbox) process) (same : after.kernel = system.kernel) :
      Rightful system (.slay bstack mailbox) after := by
    refine ⟨fun process slain => absurd slain (none process), ?_, fun _ => ?_, fun _ => ?_⟩
    · rintro pointer ⟨msg, call, target, other, -⟩
      cases other
    · rw [same]
      exact fun entry member => member
    · rw [same]
      exact fun page set => set
  have only {process : Process} (slain : Slain system (.slay bstack mailbox) process) : found = some process :=
    Except.ok.inj (due.symm.trans slain.found)
  cases found with
  | none =>
    obtain rfl := Except.ok.inj ran
    refine ⟨⟨owned.valid, owned.ledger, owned.frames, owned.blocks, owned.null, owned.kernel, owned.torn⟩, ?_⟩
    exact quiet (fun process slain => by cases only slain) rfl
  | some process =>
    dsimp only at ran
    split at ran
    next waiting =>
      have slain : Slain system (.slay bstack mailbox) process := ⟨⟨bstack, mailbox, rfl⟩, due, waiting⟩
      obtain ⟨middle, tearing, rest⟩ := bind_ok ran
      obtain rfl := Except.ok.inj rest
      obtain ⟨next, sole⟩ := owned.tearDown here.symm waiting (first process slain) tearing
      refine ⟨⟨next.valid, next.ledger, next.frames, next.blocks, next.null, next.kernel, next.torn⟩, ?_, ?_, ?_, ?_⟩
      · intro other slain
        obtain rfl := Option.some.inj (only slain)
        exact ⟨sole.kernelStack, sole.mailbox, sole.frames⟩
      · rintro pointer ⟨msg, call, target, other, -⟩
        cases other
      · exact fun none => absurd slain (none process)
      · exact fun none => absurd slain (none process)
    next alive =>
      obtain rfl := Except.ok.inj ran
      refine ⟨⟨owned.valid, owned.ledger, owned.frames, owned.blocks, owned.null, owned.kernel, owned.torn⟩, ?_⟩
      refine quiet (fun other slain => ?_) rfl
      obtain rfl := Option.some.inj (only slain)
      exact alive slain.waiting

/-- Steps other than the slayer's only add to the ledger. -/
theorem act_enters (owned : Owned initial table system) {action : SystemAction}
    (other : ∀ bstack mailbox, action ≠ .slay bstack mailbox) (ran : system.act action = .ok after) :
    Enters (fun _ => True) system.kernel.vm after.kernel.vm := by
  cases action with
  | load elf block bstack =>
    obtain ⟨⟨process, kernel⟩, loading, ran⟩ := bind_ok ran
    obtain ⟨⟨⟩, -, rest⟩ := bind_ok ran
    obtain rfl := Except.ok.inj rest
    exact (loadElfModule_made owned.ledger loading).1
  | push index arguments call =>
    change system.push index arguments call = _ at ran
    unfold System.push at ran
    split at ran
    next => cases ran
    next process taken =>
      obtain ⟨⟨answer, kernel⟩, growing, ran⟩ := bind_ok ran
      obtain ⟨pushed, -, rest⟩ := bind_ok ran
      obtain rfl := Except.ok.inj rest
      exact (growVec_enters owned.ledger growing).1.1.mono fun _ _ => trivial
  | tick regs =>
    obtain ⟨⟨installed, sched⟩, -, rest⟩ := bind_ok ran
    obtain rfl := Except.ok.inj rest
    exact .refl _ _
  | send msg call =>
    obtain ⟨⟨⟩, -, ran⟩ := bind_ok ran
    obtain ⟨found, -, ran⟩ := bind_ok ran
    cases found with
    | none => cases ran
    | some proc =>
      obtain ⟨target, -, ran⟩ := bind_ok ran
      obtain ⟨⟨answer, middle⟩, expanded, ran⟩ := bind_ok ran
      obtain ⟨⟨filled, sched⟩, -, rest⟩ := bind_ok ran
      obtain rfl := Except.ok.inj rest
      obtain ⟨kernel, growing, rest⟩ := System.expand_ok expanded
      have enters := (growVec_enters owned.ledger growing).1.1.mono fun _ _ => trivial
      rcases rest with ⟨-, rfl⟩ | ⟨pointer, -, -, -, rfl⟩
      · exact enters
      · exact enters
  | receive sync =>
    obtain ⟨⟨⟩, -, ran⟩ := bind_ok ran
    obtain ⟨⟨got, sched⟩, -, rest⟩ := bind_ok ran
    obtain rfl := Except.ok.inj rest
    exact .refl _ _
  | exit rbx =>
    obtain ⟨⟨⟩, -, ran⟩ := bind_ok ran
    obtain ⟨sched, -, rest⟩ := bind_ok ran
    obtain rfl := Except.ok.inj rest
    exact .refl _ _
  | slay bstack mailbox => exact absurd rfl (other bstack mailbox)

/-- The mailbox a send outgrows is claimed by its receiver. -/
theorem outgrown (owned : Owned initial table system) {action : SystemAction} {pointer : Nat}
    (ran : system.act action = .ok after) (outgrown : Outgrown system action pointer) :
    pointer = 0 ∨ pointer ∈ system.blocks := by
  obtain ⟨msg, call, target, rfl, got, -, rfl⟩ := outgrown
  obtain ⟨⟨⟩, -, ran⟩ := bind_ok ran
  obtain ⟨found, asked, ran⟩ := bind_ok ran
  cases found with
  | none => cases ran
  | some proc =>
    obtain ⟨rfl, process, found, alive⟩ := owned.valid.by_pid asked
    have inside := (List.getElem?_eq_some_iff.mp found).1
    obtain rfl := Option.some.inj (found.symm.trans (owned.valid.get got inside))
    have claimed := (blocks_split _ found (owned.apart found alive)).symm.subperm.trans owned.blocks
    exact (released claimed owned.null).2

theorem act (owned : Owned initial table system) {action : SystemAction} (first : FirstVisit system action)
    (ran : system.act action = .ok after) : (∃ list, Owned initial list after) ∧ Rightful system action after := by
  have others (other : ∀ bstack mailbox, action ≠ .slay bstack mailbox) (next : ∃ list, Owned initial list after) :
      (∃ list, Owned initial list after) ∧ Rightful system action after := by
    have enters := owned.act_enters other ran
    obtain ⟨list, later⟩ := next
    refine ⟨⟨list, later⟩, fun process slain => ?_, fun pointer => owned.outgrown ran, fun _ entry =>
      enters.kept, fun _ page set => ?_⟩
    · obtain ⟨bstack, mailbox, same⟩ := slain.slays
      exact absurd same (other bstack mailbox)
    · exact owned.ledger.taken later.ledger (fun entry => enters.kept) set
  cases action with
  | load elf block bstack => exact others nofun ⟨table, owned.load ran⟩
  | push index arguments call => exact others nofun (owned.push ran)
  | tick regs => exact others nofun (owned.tick ran)
  | send msg call => exact others nofun (owned.send ran)
  | receive sync => exact others nofun (owned.receive ran)
  | exit rbx => exact others nofun (owned.exit ran)
  | slay bstack mailbox =>
    obtain ⟨next, rightful⟩ := owned.slay first ran
    exact ⟨⟨table, next⟩, rightful⟩

end Owned

theorem intstackInit_enters {initial : Pmm} {kernel after : Kernel} {ist0 ist1 rsp0 : HeapCall} {tss : Tss}
    (ledger : Ledger initial kernel.vm) (ran : intstackInit kernel ist0 ist1 rsp0 = .ok (tss, after)) :
    Enters HeapOwner kernel.vm after.vm ∧ after.sched = kernel.sched := by
  obtain ⟨⟨_, kernel1⟩, first, ran⟩ := bind_ok ran
  obtain ⟨⟨_, kernel2⟩, second, ran⟩ := bind_ok ran
  obtain ⟨⟨_, kernel3⟩, third, rest⟩ := bind_ok ran
  obtain ⟨-, rfl⟩ := Prod.mk.inj (Except.ok.inj rest)
  obtain ⟨enters1, same1, -⟩ := kmalloc_enters ledger first
  have ledger1 := enters1.ledger ledger
  obtain ⟨enters2, same2, -⟩ := kmalloc_enters ledger1 second
  obtain ⟨enters3, same3, -⟩ := kmalloc_enters (enters2.ledger ledger1) third
  exact ⟨(enters1.trans enters2).trans enters3, same3.trans (same2.trans same1)⟩

theorem schedInitHeap_enters {initial : Pmm} {kernel after : Kernel} {block table : HeapCall}
    (ledger : Ledger initial kernel.vm) (ran : schedInitHeap kernel block table = .ok after) :
    Enters HeapOwner kernel.vm after.vm ∧
      schedInit kernel.sched (vmmSwitchSpace after.vm.kernelPml4) (some table.pointer) = .ok after.sched := by
  obtain ⟨⟨_, zeroed⟩, first, ran⟩ := bind_ok ran
  obtain ⟨⟨answer, grown⟩, second, ran⟩ := bind_ok ran
  obtain ⟨sched, started, rest⟩ := bind_ok ran
  obtain rfl := Except.ok.inj rest
  obtain ⟨enters1, same1, -⟩ := kcalloc_enters ledger first
  obtain ⟨enters2, same2, rfl⟩ := kmalloc_enters (enters1.ledger ledger) second
  exact ⟨enters1.trans enters2, by rw [← same1, ← same2]; exact started⟩

theorem boot_owned {mem : Bytes} {handover : Handover} {ist0 ist1 rsp0 block table : HeapCall} {system : System}
    (fits : handover.Fits) (ran : boot mem handover ist0 ist1 rsp0 block table = .ok system) :
    ∃ initial list, Owned initial list system := by
  obtain ⟨⟨pmm, edited⟩, placed, ran⟩ := bind_ok ran
  obtain ⟨vm, mapped, ran⟩ := bind_ok ran
  obtain ⟨⟨tss, stacked⟩, interrupts, ran⟩ := bind_ok ran
  obtain ⟨kernel, started, rest⟩ := bind_ok ran
  obtain rfl := Except.ok.inj rest
  have ledger := vmmInit_ledger (pmmInit_bound fits placed) mapped
  obtain ⟨enters, same⟩ := intstackInit_enters (show Ledger pmm (Kernel.mk .zero vm).vm from ledger) interrupts
  obtain ⟨enters', started⟩ := schedInitHeap_enters (enters.ledger ledger) started
  rw [same] at started
  have valid := Table.init started
  refine ⟨pmm, _, valid, enters'.ledger (enters.ledger ledger), ?_, ?_, nofun, ⟨_, rfl, rfl⟩, nofun⟩
  · simp [frameClaims, claims, standing]
  · simp [blockClaims, claims, standing, pointers, keep, Process.zero, vecInit]

theorem run_owned {system : System} (run : System.Run FirstVisit system) :
    ∃ initial table, Owned initial table system := by
  induction run with
  | boot fits ran => exact boot_owned fits ran
  | step before first ran ih =>
    obtain ⟨initial, table, owned⟩ := ih
    obtain ⟨next, -⟩ := owned.act first ran
    exact ⟨initial, next⟩

/-- While no sweep comes to a process an earlier one tore down, everything is given
back by its only owner, and no sweep touches a frame that is somebody else's. -/
theorem released_once {system after : System} {action : SystemAction} (run : System.Run FirstVisit system)
    (first : FirstVisit system action) (ran : system.act action = .ok after) : Rightful system action after := by
  obtain ⟨initial, table, owned⟩ := run_owned run
  exact (owned.act first ran).2

/-- Ten ticks of the timer, enough for a switch. -/
def ticks : List SystemAction := List.replicate 10 (.tick .zero)

def sweep : SystemAction := .slay ⟨[], 0⟩ ⟨[], 0⟩

/-- From its push on, a process runs, exits, and waits for the slayer. -/
def lifetime : List SystemAction := ticks ++ [.exit 0] ++ ticks

/-- The lifetime leads the slayer to the process, and a full sweep back to it. -/
private theorem lifetime_sweeps {root first second pml rip bstack : Nat} {stack : Range} {sched : Sched}
    (pushed : pairSched root first second (newTask pml rip bstack stack) = .ok sched) (vm : Vm) (blocks : List Nat) :
    ∃ sched' middle process, lifetime.foldlM System.act ⟨⟨sched, vm⟩, [], 0, blocks, []⟩ = .ok middle ∧
      middle.act sweep = .ok ⟨⟨sched', vm⟩, [], 1, blocks, []⟩ ∧ middle.torn = [] ∧
      process.stack = stack ∧ process.pml = pml ∧ process.state = .waitingForDeath ∧
      (∀ vm blocks torn, System.due ⟨⟨sched', vm⟩, [], 1, blocks, torn⟩ = .ok (some process)) ∧
      sched'.currentPid = 0 ∧
      ∀ vm blocks torn, [sweep, sweep].foldlM System.act ⟨⟨sched', vm⟩, [], 2, blocks, torn⟩ =
        .ok ⟨⟨sched', vm⟩, [], 1, blocks, torn⟩ := by
  obtain rfl := Except.ok.inj pushed
  exact ⟨_, _, _, rfl, rfl, rfl, rfl, rfl, rfl, fun _ _ _ => rfl, rfl, fun _ _ _ => rfl⟩

private theorem reap_returns (kernel : Kernel) (process : Process) {size : Nat}
    (bitmap : kernel.vm.pmm.bitmapSize = size) (bound : size ≤ 2 ^ 34)
    (stack : process.stack.base / 4096 + process.stack.length / 4096 ≤ size)
    (root : (rootEntry process).2.base / 4096 + (rootEntry process).2.length / 4096 ≤ size) :
    ∃ vm, reap kernel process ⟨[], 0⟩ ⟨[], 0⟩ = .ok ⟨kernel.sched, vm⟩ ∧ vm.pmm.bitmapSize = size := by
  have freed (kernel : Kernel) (ptr : Nat) : kfree kernel ptr ⟨[], 0⟩ = .ok kernel := by
    unfold kfree
    split
    · rfl
    · rfl
  obtain ⟨one, first, -, cleared⟩ := Pmm.pmmRangeUnused_rewrites kernel.vm.pmm process.stack (by omega) (by omega)
  have size1 : one.bitmapSize = size := cleared.size.trans bitmap
  obtain ⟨two, second, -, cleared⟩ := Pmm.pmmRangeUnused_rewrites one (rootEntry process).2 (by omega) (by omega)
  refine ⟨{ kernel.vm with
    mem := memset kernel.vm.mem process.pml 0 pageSize
    pmm := two
    owners := (kernel.vm.owners.erase (stackEntry process)).erase (rootEntry process) }, ?_, cleared.size.trans size1⟩
  unfold reap
  simp only [freed, ok_bind, Vm.free, pmmFree, first, vmmSpaceDestroy, pure_bind]
  change (pmmRangeUnused one (rootEntry process).2 >>= _) >>= _ = _
  rw [second]
  rfl

/-- Steps that change the scheduler only, on the way to a first sweep. -/
private theorem quiet_run {system after : System} {actions : List SystemAction} (start : system.torn = [])
    (quiet : ∀ action ∈ actions, (∃ regs, action = .tick regs) ∨ ∃ rbx, action = .exit rbx)
    (ran : actions.foldlM System.act system = .ok after) : System.Leads FirstVisit system after ∧ after.torn = [] := by
  have step (state : System) (action : SystemAction) (next : System) (member : action ∈ actions)
      (kept : System.Leads FirstVisit system state ∧ state.torn = []) (turn : state.act action = .ok next) :
      System.Leads FirstVisit system next ∧ next.torn = [] := by
    have first : FirstVisit state action := by
      intro process slain
      rw [kept.2]
      exact List.not_mem_nil
    refine ⟨.tail kept.1 ⟨action, first, turn⟩, ?_⟩
    rcases quiet action member with ⟨regs, rfl⟩ | ⟨rbx, rfl⟩
    · obtain ⟨⟨installed, sched⟩, -, rest⟩ := bind_ok turn
      obtain rfl := Except.ok.inj rest
      exact kept.2
    · obtain ⟨⟨⟩, -, turn⟩ := bind_ok turn
      obtain ⟨sched, -, rest⟩ := bind_ok turn
      obtain rfl := Except.ok.inj rest
      exact kept.2
  exact foldlM_keeps step ⟨.refl, start⟩ ran

private theorem lifetime_quiet (action : SystemAction) (member : action ∈ lifetime) :
    (∃ regs, action = .tick regs) ∨ ∃ rbx, action = .exit rbx := by
  simp only [lifetime, ticks, List.mem_append, List.mem_singleton, List.mem_replicate] at member
  rcases member with (⟨-, rfl⟩ | rfl) | ⟨-, rfl⟩
  · exact .inl ⟨_, rfl⟩
  · exact .inr ⟨_, rfl⟩
  · exact .inl ⟨_, rfl⟩

/-- From boot over a load to the first visit of a process that has exited. -/
structure Visited (start loaded : System) (elf : Range) (block bstack : HeapCall) (vm : Vm) (sched : Sched)
    (blocks : List Nat) (process : Process) : Prop where
  boots : ∀ meets, System.Run meets start
  loads : start.act (.load elf block bstack) = .ok loaded
  made : ∃ first, loaded.loaded = [first] ∧ process.pml = first.pml ∧ process.stack = first.stack
  leads : System.Leads FirstVisit loaded ⟨⟨sched, vm⟩, [], 1, blocks, []⟩
  ledger : ∃ initial, Ledger initial vm
  entries : List.Subperm [stackEntry process, rootEntry process] vm.owners
  whole : process.stack.length ≠ 0
  waiting : process.state = .waitingForDeath
  current : sched.currentPid = 0
  due : ∀ vm blocks torn, System.due ⟨⟨sched, vm⟩, [], 1, blocks, torn⟩ = .ok (some process)
  round : ∀ vm blocks torn, [sweep, sweep].foldlM System.act ⟨⟨sched, vm⟩, [], 2, blocks, torn⟩ =
    .ok ⟨⟨sched, vm⟩, [], 1, blocks, torn⟩

theorem gigabyte_visit : ∃ start loaded elf block bstack vm sched blocks process,
    Visited start loaded elf block bstack vm sched blocks process := by
  obtain ⟨initial, heap, root, start, booted, sched, fresh, stack, vm, boots, working, loads, loaded, pushed,
    pair, later⟩ :=
    gigabyte_pushes (fun _ => 0) (by decide)
  have fits : gigabyte.Fits := by
    constructor <;> simp [gigabyte]
  have visit (state : System) (action : SystemAction) (start : state.torn = []) : FirstVisit state action := by
    intro process slain
    rw [start]
    exact List.not_mem_nil
  obtain ⟨sched', middle, process, lives, swept, torn, stack', pml, waiting, due, current, round⟩ :=
    lifetime_sweeps pair vm [mmapPhysToIo (heap + 0x10000)]
  obtain ⟨lived, torn⟩ := quiet_run rfl lifetime_quiet lives
  have leads : System.Leads FirstVisit _ _ := .tail (.head ⟨_, visit _ _ rfl, pushed⟩ lived) ⟨_, visit _ _ torn, swept⟩
  obtain ⟨-, -, entries, some, -⟩ :=
    loadElfModule_made (show Ledger initial (Kernel.mk start booted).vm from working.ledger) loads
  refine ⟨_, _, _, _, _, vm, sched', _, process, fun meets => .boot fits boots, loaded, ⟨_, rfl, pml, stack'⟩,
    leads, ⟨initial, later.ledger⟩, ?_, by rw [stack']; exact some, waiting, current, due, round⟩
  unfold stackEntry rootEntry
  rw [stack', pml]
  refine List.Subperm.trans ?_ entries
  exact (List.Sublist.cons_cons _ (List.Sublist.cons_cons _ (List.nil_sublist _))).subperm

namespace Visited

variable {start loaded : System} {elf : Range} {block bstack : HeapCall} {vm : Vm} {sched : Sched}
  {blocks : List Nat} {process : Process}

theorem run (visited : Visited start loaded elf block bstack vm sched blocks process) :
    System.Run FirstVisit ⟨⟨sched, vm⟩, [], 1, blocks, []⟩ := by
  have first : FirstVisit start (.load elf block bstack) := by
    intro process slain
    obtain ⟨bstack, mailbox, other⟩ := slain.slays
    cases other
  exact (System.Run.step (visited.boots FirstVisit) first visited.loads).extend visited.leads

/-- The frames of the process lie in memory the allocator knows. -/
theorem bounds (visited : Visited start loaded elf block bstack vm sched blocks process) :
    vm.pmm.bitmapSize ≤ 2 ^ 34 ∧ process.stack.base / 4096 + process.stack.length / 4096 ≤ vm.pmm.bitmapSize ∧
      (rootEntry process).2.base / 4096 + (rootEntry process).2.length / 4096 ≤ vm.pmm.bitmapSize := by
  obtain ⟨initial, ledger⟩ := visited.ledger
  have accounts := ledger.accounts
  rw [accounts.size]
  exact ⟨ledger.bound, accounts.bound process.stack (List.mem_map_of_mem (visited.entries.subset List.mem_cons_self)),
    accounts.bound (rootEntry process).2 (List.mem_map_of_mem (visited.entries.subset (by simp)))⟩

end Visited

/-- One test of the slayer's loop that finds its process. -/
private theorem slay_returns {sched : Sched} {vm after : Vm} {blocks torn : List Nat} {process : Process}
    (current : sched.currentPid = 0) (due : System.due ⟨⟨sched, vm⟩, [], 1, blocks, torn⟩ = .ok (some process))
    (waiting : process.state = .waitingForDeath)
    (reaped : reap ⟨sched, vm⟩ process ⟨[], 0⟩ ⟨[], 0⟩ = .ok ⟨sched, after⟩) :
    ∃ blocks', System.act ⟨⟨sched, vm⟩, [], 1, blocks, torn⟩ sweep =
      .ok ⟨⟨sched, after⟩, [], 2, blocks', 1 :: torn⟩ := by
  refine ⟨(blocks.erase process.syscallKernelBstack).erase process.mailbox.pointer, ?_⟩
  change (check _ _ >>= _) = _
  rw [check_true _ (show (System.mk ⟨sched, vm⟩ [] 1 blocks torn).kernel.sched.currentPid = 0 from current),
    ok_bind, due, ok_bind]
  dsimp only
  rw [if_pos waiting]
  unfold System.tearDown
  dsimp only
  rw [reaped]
  rfl

/-- The first visit tears the process down. -/
theorem Visited.sweeps {start loaded : System} {elf : Range} {block bstack : HeapCall} {vm : Vm} {sched : Sched}
    {blocks : List Nat} {process : Process}
    (visited : Visited start loaded elf block bstack vm sched blocks process) :
    ∃ once blocks', reap ⟨sched, vm⟩ process ⟨[], 0⟩ ⟨[], 0⟩ = .ok ⟨sched, once⟩ ∧ once.pmm.bitmapSize =
      vm.pmm.bitmapSize ∧
      System.act ⟨⟨sched, vm⟩, [], 1, blocks, []⟩ sweep = .ok ⟨⟨sched, once⟩, [], 2, blocks', [1]⟩ := by
  obtain ⟨bound, stack, root⟩ := visited.bounds
  obtain ⟨once, reaped, size⟩ := reap_returns ⟨sched, vm⟩ process rfl bound stack root
  obtain ⟨blocks', swept⟩ := slay_returns visited.current (visited.due vm blocks []) visited.waiting reaped
  exact ⟨once, blocks', reaped, size, swept⟩

theorem released_once_first_visit : ∃ system after, System.Run FirstVisit system ∧ system.act sweep = .ok after ∧
    Rightful system sweep after := by
  obtain ⟨start, loaded, elf, block, bstack, vm, sched, blocks, process, visited⟩ := gigabyte_visit
  obtain ⟨once, blocks', -, -, swept⟩ := visited.sweeps
  have first : FirstVisit ⟨⟨sched, vm⟩, [], 1, blocks, []⟩ sweep := fun _ _ => List.not_mem_nil
  exact ⟨_, _, visited.run, swept, released_once visited.run first swept⟩

/-- Sweeping again gives the same frames back a second time. -/
theorem second_visit_releases_again : ¬ ∀ system action after, System.Run (fun _ _ => True) system →
    system.act action = .ok after →
    Rightful system action after := by
  intro claim
  obtain ⟨start, loaded, elf, block, bstack, vm, sched, blocks, process, visited⟩ := gigabyte_visit
  obtain ⟨initial, ledger⟩ := visited.ledger
  obtain ⟨bound, stack, root⟩ := visited.bounds
  obtain ⟨once, blocks', reaped, size, swept⟩ := visited.sweeps
  obtain ⟨result, -⟩ := reap_ok ledger visited.entries reaped
  obtain ⟨twice, again, -⟩ := reap_returns ⟨sched, once⟩ process size bound stack root
  obtain ⟨blocks'', sweptAgain⟩ := slay_returns visited.current (visited.due once blocks' [1]) visited.waiting again
  -- any run will do for the claim
  have onward {system after : System} {actions : List SystemAction} (run : System.Run (fun _ _ => True) system)
      (ran : actions.foldlM System.act system = .ok after) : System.Run (fun _ _ => True) after :=
    foldlM_keeps (fun _ _ _ _ before turn => .step before trivial turn) run ran
  have later := onward (.step (visited.run.mono fun _ _ _ => trivial) trivial swept) (visited.round once blocks' [1])
  have sole := (claim _ _ _ later sweptAgain).slain process ⟨⟨_, _, rfl⟩, visited.due once blocks' [1], visited.waiting⟩
  have page : process.stack.base / 4096 ∈ process.stack.pages := by
    have aligned :=
      ledger.accounts.aligned process.stack (List.mem_map_of_mem (visited.entries.subset List.mem_cons_self))
    have whole := visited.whole
    exact Range.mem_pages.mpr (by omega)
  exact (result.apart (stackEntry process) sole.frames.stack _ page).1 page

end Navy
