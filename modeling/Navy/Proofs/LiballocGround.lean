import Navy.Proofs.LiballocFields
import Navy.Proofs.Operations

/-! The ground liballoc stands on: what its hooks do to the machine. -/

namespace Navy.Liballoc
open Outcome Paging

variable {initial : Pmm} {roots : Nat → Prop} {root pages pointer place : Nat} {kernel after : Kernel}

/-- A machine whose heap hooks work as they should. -/
structure Ground (initial : Pmm) (roots : Nat → Prop) (root : Nat) (kernel : Kernel) : Prop where
  sane : Sane initial roots root kernel.vm
  homed : Homed roots kernel

/-- One machine has come from another, and the heap has lost nothing. -/
structure Keeps (kernel after : Kernel) : Prop where
  owned : ∀ place, heapOwned kernel.vm place = true → heapOwned after.vm place = true
  entries : ∀ range, (Owner.heap, range) ∈ kernel.vm.owners → (Owner.heap, range) ∈ after.vm.owners

/-- A block has come from the system. -/
structure Supplied (kernel : Kernel) (pages pointer : Nat) (after : Kernel) : Prop extends Keeps kernel after where
  low : mmapIoBase ≤ pointer
  high : pointer + pages * pageSize < 2 ^ 64
  given : ∀ address, pointer ≤ address → address < pointer + pages * pageSize →
    heapOwned after.vm (physical address) = true
  fresh : ∀ address, pointer ≤ address → address < pointer + pages * pageSize →
    heapOwned kernel.vm (physical address) = false
  entry : ∃ range, (Owner.heap, range) ∈ after.vm.owners ∧ mmapPhysToIo range.base = pointer
  bytes : ∀ place, heapOwned kernel.vm place = true → after.vm.mem place = kernel.vm.mem place

theorem heapOwned_of_entry {vm : Vm} {range : Range} (member : (Owner.heap, range) ∈ vm.owners)
    (low : range.base ≤ place) (high : place < range.base + range.length) : heapOwned vm place = true := by
  unfold heapOwned
  refine List.any_eq_true.mpr ⟨_, member, ?_⟩
  simp [low, high]

theorem entry_of_heapOwned {vm : Vm} (owned : heapOwned vm place = true) :
    ∃ range, (Owner.heap, range) ∈ vm.owners ∧ range.base ≤ place ∧ place < range.base + range.length := by
  obtain ⟨⟨owner, range⟩, member, inside⟩ := List.any_eq_true.mp owned
  simp only [Bool.and_eq_true, beq_iff_eq, decide_eq_true_eq] at inside
  obtain ⟨⟨rfl, low⟩, high⟩ := inside
  exact ⟨range, member, low, high⟩

theorem Keeps.of_entries
    (entries : ∀ range, (Owner.heap, range) ∈ kernel.vm.owners → (Owner.heap, range) ∈ after.vm.owners) :
    Keeps kernel after := by
  refine ⟨fun place owned => ?_, entries⟩
  obtain ⟨range, member, low, high⟩ := entry_of_heapOwned owned
  exact heapOwned_of_entry (entries range member) low high

/-- One machine comes from another by actions of some kind, as the rest of the kernel
reckons with them. -/
def Acts (kind : HeapAction → Prop) (kernel after : Kernel) : Prop :=
  ∃ actions : List HeapAction, (∀ action ∈ actions, kind action) ∧ actions.foldlM heapAct kernel = .ok after

section Acts

variable {kind : HeapAction → Prop}

theorem Acts.trans {last : Kernel} (first : Acts kind kernel after) (more : Acts kind after last) :
    Acts kind kernel last := by
  obtain ⟨actions, kinds, ran⟩ := first
  obtain ⟨actions', kinds', ran'⟩ := more
  refine ⟨actions ++ actions', fun action among => (List.mem_append.mp among).elim (kinds action) (kinds' action), ?_⟩
  rw [List.foldlM_append, ran, ok_bind]
  exact ran'

theorem Acts.mono {wider : HeapAction → Prop} (acts : Acts kind kernel after)
    (within : ∀ action, kind action → wider action) : Acts wider kernel after := by
  obtain ⟨actions, kinds, ran⟩ := acts
  exact ⟨actions, fun action among => within action (kinds action among), ran⟩

theorem writes_ran {mem : Bytes} {places : List Nat} (owned : ∀ place ∈ places, heapOwned kernel.vm place = true) :
    (places.map fun place => HeapAction.write place (mem place)).foldlM heapAct kernel =
      .ok { kernel with vm := { kernel.vm with mem := fun place => if place ∈ places then mem place else kernel.vm.mem place } } := by
  induction places generalizing kernel with
  | nil => simp [pure, Except.pure]
  | cons first rest ih =>
    have turn : heapAct kernel (.write first (mem first)) =
        .ok { kernel with vm := { kernel.vm with mem := Function.update kernel.vm.mem first (mem first) } } := by
      change (check _ _ >>= _) = _
      rw [check_true _ (owned first List.mem_cons_self)]
      rfl
    have others := @ih { kernel with vm := { kernel.vm with mem := Function.update kernel.vm.mem first (mem first) } }
      fun place among => owned place (List.mem_cons_of_mem _ among)
    rw [List.map_cons, List.foldlM_cons, turn, ok_bind, others]
    have same : (fun place => if place ∈ rest then mem place else Function.update kernel.vm.mem first (mem first) place) =
        fun place => if place ∈ first :: rest then mem place else kernel.vm.mem place := by
      funext place
      simp only [List.mem_cons]
      by_cases here : place = first
      · subst here
        simp
      · simp [here]
    simp only [same]

/-- The places of the heap. -/
def heapPlaces (vm : Vm) : List Nat :=
  vm.owners.flatMap fun entry => if entry.1 = .heap then (List.range entry.2.length).map (entry.2.base + ·) else []

theorem mem_heapPlaces {vm : Vm} : place ∈ heapPlaces vm ↔ heapOwned vm place = true := by
  constructor
  · intro among
    obtain ⟨⟨owner, range⟩, member, inside⟩ := List.mem_flatMap.mp among
    split at inside
    next heap =>
      obtain ⟨offset, within, rfl⟩ := List.mem_map.mp inside
      have := List.mem_range.mp within
      obtain rfl : owner = .heap := heap
      exact heapOwned_of_entry member (Nat.le_add_right _ _) (Nat.add_lt_add_left this _)
    next => cases inside
  · intro owned
    obtain ⟨range, member, low, high⟩ := entry_of_heapOwned owned
    refine List.mem_flatMap.mpr ⟨_, member, ?_⟩
    rw [if_pos rfl]
    have back : place - range.base < range.length := by omega
    exact List.mem_map.mpr ⟨place - range.base, List.mem_range.mpr back, Nat.add_sub_cancel' low⟩

/-- What is written to the heap only are writes of liballoc. -/
theorem Acts.write {mem : Bytes} (same : ∀ place, heapOwned kernel.vm place = false → mem place = kernel.vm.mem place) :
    Acts (fun action => action.allocates = false) kernel { kernel with vm := { kernel.vm with mem } } := by
  refine ⟨_, fun action among => ?_, (@writes_ran kernel mem (heapPlaces kernel.vm) fun _ => mem_heapPlaces.mp).trans ?_⟩
  · obtain ⟨place, -, rfl⟩ := List.mem_map.mp among
    rfl
  · have whole : (fun place => if place ∈ heapPlaces kernel.vm then mem place else kernel.vm.mem place) = mem := by
      funext place
      split
      next => rfl
      next outside =>
        refine (same place ?_).symm
        exact Bool.eq_false_iff.mpr fun owned => outside (mem_heapPlaces.mpr owned)
    simp only [whole]

theorem Acts.alloc (ran : liballocAlloc kernel pages = .ok (pointer, after)) : Acts (fun _ => True) kernel after := by
  refine ⟨[.alloc pages], fun _ _ => trivial, ?_⟩
  have turn : heapAct kernel (.alloc pages) = .ok after := by
    change (liballocAlloc kernel pages >>= _) = _
    rw [ran]
    rfl
  rw [List.foldlM_cons, turn]
  rfl

end Acts

namespace Ground

variable (ground : Ground initial roots root kernel)
include ground

theorem held (owned : heapOwned kernel.vm place = true) : ¬ Available kernel.vm.pmm (place / 4096) :=
  (ground.sane.heap_reserved owned).held

/-- The hook gives a block the heap did not have, and touches none it had. -/
theorem supplies (ran : liballocAlloc kernel pages = .ok (pointer, after)) :
    Ground initial roots root after ∧ Supplied kernel pages pointer after := by
  obtain ⟨sound, homed⟩ := ground
  obtain ⟨took, sched⟩ := liballocAlloc_took sound homed ran
  obtain ⟨space, chosen, ran⟩ := bind_ok ran
  obtain ⟨home, isHome, rfl⟩ := homed space chosen
  obtain ⟨⟨range, vm⟩, allocated, ran⟩ := bind_ok ran
  obtain ⟨⟨⟩, some, ran⟩ := bind_ok ran
  obtain ⟨mapped, mapping, rest⟩ := bind_ok ran
  obtain ⟨rfl, rfl⟩ := Prod.mk.inj (Except.ok.inj rest)
  obtain ⟨given, grows, mem, owners, fresh⟩ := sound.allocated allocated
  have aligned := given.ledger.accounts.aligned range (by rw [owners]; simp)
  obtain ⟨-, grows', tables, -⟩ := given.mapHeap isHome aligned.1 aligned.2
    (fun page inside => sound.initially (fresh page inside).1) mapping
  obtain ⟨added, entered⟩ := tables
  have all : mapped.owners = added ++ (Owner.heap, range) :: kernel.vm.owners := by rw [entered.owners, owners]
  have bound := given.ledger.accounts.bound range (by rw [owners]; simp)
  have most := given.ledger.bound
  -- the allocator gives all it was asked for, or nothing, which the hook does not take
  have enough : pages * pageSize ≤ range.length := by
    obtain ⟨⟨range', pmm⟩, taken, rest⟩ := bind_ok allocated
    obtain ⟨rfl, -⟩ := Prod.mk.inj (Except.ok.inj rest)
    rcases (Pmm.pmmAlloc_ok sound.ledger.pmm_sized taken).2 with enough | nothing
    · exact enough
    · have positive := check_ok some
      rw [nothing] at positive
      cases positive
  have io : mmapPhysToIo range.base = range.base + mmapIoBase := by
    unfold mmapPhysToIo
    exact wrap_of_lt (by simp only [mmapIoBase]; omega)
  have inside {address : Nat} (low : mmapPhysToIo range.base ≤ address)
    (high : address < mmapPhysToIo range.base + pages * pageSize) :
      range.base ≤ physical address ∧ physical address < range.base + range.length := by
    rw [io] at low high
    unfold physical
    omega
  refine ⟨⟨took.sound, homed.congr sched took.moves.kernel⟩, Keeps.of_entries fun other member =>
    ?_, ?_, ?_, ?_, ?_, ?_, ?_⟩
  · rw [all]
    simp [member]
  · rw [io]
    omega
  · rw [io]
    simp only [mmapIoBase]
    omega
  · intro address low high
    obtain ⟨front, back⟩ := inside low high
    exact heapOwned_of_entry (by rw [all]; simp) front back
  · intro address low high
    obtain ⟨front, back⟩ := inside low high
    apply Bool.eq_false_iff.mpr
    intro owned
    apply (sound.heap_reserved owned).held
    exact (fresh _ (Range.mem_pages.mpr (by omega))).1
  · exact ⟨range, by rw [all]; simp, rfl⟩
  · intro place owned
    have reserved := sound.heap_reserved owned
    exact (grows.trans grows').bytes place reserved.held reserved.apart

theorem write {mem : Bytes} (same : ∀ place, heapOwned kernel.vm place = false → mem place = kernel.vm.mem place) :
    Ground initial roots root { kernel with vm := { kernel.vm with mem } } := by
  have took : Took initial roots root HeapOwner (fun _ _ => False) kernel.vm { kernel.vm with mem } :=
    ground.sane.writeHeap HeapOwner same
  exact ⟨took.sound, ground.homed.congr rfl took.moves.kernel⟩

/-- The other hook does nothing to a block it may take. -/
theorem nothing {entry : Range} (member : (Owner.heap, entry) ∈ kernel.vm.owners)
    (same : mmapPhysToIo entry.base = pointer) (ran : liballocFree kernel pointer pages = .ok after) :
    after = kernel :=
  liballocFree_nothing ground.sane.ledger member same ran

end Ground

end Navy.Liballoc
