import Navy.UserMemory
import Navy.Proofs.Loads

/-! What the kernel's loads and stores through a pointer do: they reach what the
page tables show, and stores to frames that hold no tables leave these as they are. -/

namespace Navy
open Outcome Paging

theorem kernelAddress_small {mem : Bytes} {root virt place : Nat}
    (here : kernelAddress mem root virt = some place) : virt < 2 ^ 64 := by
  unfold kernelAddress at here
  split at here
  next canonical =>
    unfold Canonical at canonical
    omega
  next => cases here

/-- A user address is the same byte for the kernel. -/
theorem kernelAddress_user {mem : Bytes} {root virt place : Nat} (half : UserHalf virt)
    (here : userAddress mem root virt = some place) : kernelAddress mem root virt = some place := by
  unfold userAddress at here
  split at here
  next translation walked =>
    split at here
    next =>
      unfold kernelAddress
      rw [if_pos (show Canonical virt from .inl half), walked]
      exact here
    next => cases here
  next => cases here

/-- The page behind a direct-map address. -/
theorem kernelAddress_direct {mem : Bytes} {root page offset : Nat} {writable user : Bool}
    (small : page < 2 ^ 34) (inside : offset < 4096)
    (walked : walk mem root (directPage page) = some ⟨page * 4096, writable, user⟩) :
    kernelAddress mem root (wrap (directPage page + offset)) = some (page * 4096 + offset) := by
  have direct := directPage_eq small
  have word : wrap (directPage page + offset) = directPage page + offset :=
    wrap_of_lt (by rw [direct]; simp only [mmapIoBase]; omega)
  have canonical : Canonical (directPage page + offset) := by
    rw [direct]
    simp only [Canonical, mmapIoBase]
    omega
  have whole : mmapIoBase % 4096 = 0 := by decide
  have same : walk mem root (directPage page + offset) = some ⟨page * 4096, writable, user⟩ := by
    rw [← walked]
    apply walk_page
    rw [direct]
    omega
  unfold kernelAddress
  rw [word, if_pos canonical, same, direct]
  simp only [Option.map_some, Option.some.injEq, pageSize]
  omega

theorem wrap_field (virt field offset : Nat) :
    wrap (wrap (virt + field) + offset) = wrap (virt + (field + offset)) := by
  simp only [wrap]
  omega

theorem wrap_step (virt offset : Nat) : wrap (wrap (virt + 1) + offset) = wrap (virt + (offset + 1)) := by
  rw [wrap_field, Nat.add_comm 1]

/-- What stores leave behind: the places they went to changed, and nothing else. -/
structure Wrote (places : Nat → Prop) (start kernel : Kernel) : Prop where
  sched : kernel.sched = start.sched
  vm : kernel.vm = { start.vm with mem := kernel.vm.mem }
  bytes : ∀ place, ¬ places place → kernel.vm.mem place = start.vm.mem place

namespace Wrote

variable {initial : Pmm} {roots places : Nat → Prop} {root : Nat} {start kernel after : Kernel}

theorem refl (places : Nat → Prop) (kernel : Kernel) : Wrote places kernel kernel := ⟨rfl, rfl, fun _ _ => rfl⟩

/-- Frames that hold no tables change no translation. -/
theorem walks (wrote : Wrote places start kernel) (spaces : Spaces roots start.vm)
    (reserved : ∀ place, places place → Reserved roots start.vm (place / 4096)) :
    (∀ table, IsTable roots kernel.vm.mem table ↔ IsTable roots start.vm.mem table) ∧
      ∀ space virt, roots space → walk kernel.vm.mem space virt = walk start.vm.mem space virt := by
  have written (page : Nat) (here : ∃ place, place / 4096 = page ∧ places place) : Reserved roots start.vm page := by
    obtain ⟨place, rfl, inside⟩ := here
    exact reserved place inside
  obtain ⟨-, tables, -, walks⟩ := spaces.overwritten written fun place outside =>
    wrote.bytes place fun inside => outside ⟨place, rfl, inside⟩
  exact ⟨tables, walks⟩

theorem sound (wrote : Wrote places start kernel) (sound : Sane initial roots root start.vm)
    (reserved : ∀ place, places place → Reserved roots start.vm (place / 4096)) :
    Sane initial roots root kernel.vm := by
  have written (page : Nat) (here : ∃ place, place / 4096 = page ∧ places place) : Reserved roots start.vm page := by
    obtain ⟨place, rfl, inside⟩ := here
    exact reserved place inside
  obtain ⟨later, -⟩ := sound.write written fun place outside => wrote.bytes place fun inside =>
    outside ⟨place, rfl, inside⟩
  rwa [← wrote.vm] at later

/-- The kernel finds what it found before. -/
theorem address (wrote : Wrote places start kernel) (spaces : Spaces roots start.vm)
    (reserved : ∀ place, places place → Reserved roots start.vm (place / 4096))
    (isSpace : roots start.sched.cr3) (virt : Nat) :
    kernelAddress kernel.vm.mem kernel.sched.cr3 virt = kernelAddress start.vm.mem start.sched.cr3 virt := by
  unfold kernelAddress
  rw [wrote.sched, (wrote.walks spaces reserved).2 _ virt isSpace]

theorem update (wrote : Wrote places start kernel) {place : Nat} (inside : places place) (value : BitVec 8) :
    Wrote places start { kernel with vm := { kernel.vm with mem := Function.update kernel.vm.mem place value } } := by
  refine ⟨wrote.sched, ?_, fun other outside => ?_⟩
  · dsimp only
    rw [wrote.vm]
  · have different : other ≠ place := by
      rintro rfl
      exact outside inside
    exact (Function.update_of_ne different _ _).trans (wrote.bytes other outside)

theorem store (wrote : Wrote places start kernel) (spaces : Spaces roots start.vm)
    (reserved : ∀ place, places place → Reserved roots start.vm (place / 4096))
    (isSpace : roots start.sched.cr3) {virt count value : Nat}
    (within : ∀ offset < count, ∀ place, kernelAddress start.vm.mem start.sched.cr3 (wrap (virt + offset)) =
      some place → places place)
    (ran : kernel.store virt count value = .ok after) : Wrote places start after := by
  induction count generalizing kernel virt value with
  | zero =>
    obtain rfl := Except.ok.inj ran
    exact wrote
  | succ count ih =>
    obtain ⟨middle, first, last⟩ := bind_ok ran
    unfold Kernel.storeByte at first
    rw [wrote.address spaces reserved isSpace] at first
    split at first
    next place here =>
      obtain rfl := Except.ok.inj first
      have inside : places place :=
        within 0 (Nat.succ_pos count) place (by rwa [Nat.add_zero, wrap_of_lt (kernelAddress_small here)])
      refine ih (wrote.update inside _) (fun offset below => ?_) last
      rw [wrap_step]
      exact within (offset + 1) (by omega)
    next => cases first

theorem store_returns (wrote : Wrote places start kernel) (spaces : Spaces roots start.vm)
    (reserved : ∀ place, places place → Reserved roots start.vm (place / 4096))
    (isSpace : roots start.sched.cr3)
    {virt count : Nat} (value : Nat) (small : virt < 2 ^ 64) (mapped : ∀ offset < count, ∃ place,
      kernelAddress start.vm.mem start.sched.cr3 (wrap (virt + offset)) = some place ∧ places place) :
    ∃ after, kernel.store virt count value = .ok after ∧ Wrote places start after := by
  induction count generalizing kernel virt value with
  | zero => exact ⟨kernel, rfl, wrote⟩
  | succ count ih =>
    obtain ⟨place, here, inside⟩ := mapped 0 (Nat.succ_pos count)
    rw [Nat.add_zero, wrap_of_lt small] at here
    have next (offset : Nat) (below : offset < count) : ∃ place,
        kernelAddress start.vm.mem start.sched.cr3 (wrap (wrap (virt + 1) + offset)) = some place ∧ places place := by
      rw [wrap_step]
      exact mapped (offset + 1) (by omega)
    have word : wrap (virt + 1) < 2 ^ 64 := Nat.mod_lt _ (by decide)
    obtain ⟨after, ran, later⟩ := ih (wrote.update inside (BitVec.ofNat 8 value)) (value / 256) word next
    refine ⟨after, ?_, later⟩
    unfold Kernel.store Kernel.storeByte
    rw [wrote.address spaces reserved isSpace, here]
    exact ran

theorem storeIpc (wrote : Wrote places start kernel) (spaces : Spaces roots start.vm)
    (reserved : ∀ place, places place → Reserved roots start.vm (place / 4096))
    (isSpace : roots start.sched.cr3) {msg : Nat} {content : Ipc}
    (within : ∀ offset < ipcSize, ∀ place, kernelAddress start.vm.mem start.sched.cr3 (wrap (msg + offset)) =
      some place → places place)
    (ran : kernel.storeIpc msg content = .ok after) : Wrote places start after := by
  obtain ⟨filled, first, ran⟩ := bind_ok ran
  obtain ⟨addressed, second, last⟩ := bind_ok ran
  have part (field : Nat) (inside : field + 8 ≤ ipcSize) (offset : Nat) (below : offset < 8) (place : Nat)
      (here : kernelAddress start.vm.mem start.sched.cr3 (wrap (wrap (msg + field) + offset)) =
        some place) : places place := by
    rw [wrap_field] at here
    exact within _ (by omega) place here
  have wrote := wrote.store spaces reserved isSpace
    (fun offset below => within offset (by simp only [ipcSize]; omega)) first
  have wrote := wrote.store spaces reserved isSpace (part 8 (by decide)) second
  exact wrote.store spaces reserved isSpace (part 16 (by decide)) last

theorem storeIpc_returns (wrote : Wrote places start kernel) (spaces : Spaces roots start.vm)
    (reserved : ∀ place, places place → Reserved roots start.vm (place / 4096))
    (isSpace : roots start.sched.cr3)
    {msg : Nat} (content : Ipc) (small : msg < 2 ^ 64) (mapped : ∀ offset < ipcSize, ∃ place,
      kernelAddress start.vm.mem start.sched.cr3 (wrap (msg + offset)) = some place ∧ places place) :
    ∃ after, kernel.storeIpc msg content = .ok after := by
  have part (field : Nat) (inside : field + 8 ≤ ipcSize) (offset : Nat) (below : offset < 8) : ∃ place,
      kernelAddress start.vm.mem start.sched.cr3 (wrap (wrap (msg + field) + offset)) = some place ∧ places place := by
    rw [wrap_field]
    exact mapped (field + offset) (by omega)
  have word (field : Nat) : wrap (msg + field) < 2 ^ 64 := Nat.mod_lt _ (by decide)
  obtain ⟨filled, first, wrote⟩ := wrote.store_returns spaces reserved isSpace content.sender small
    fun offset below => mapped offset (Nat.lt_of_lt_of_le below (show 8 ≤ ipcSize by decide))
  obtain ⟨addressed, second, wrote⟩ := wrote.store_returns spaces reserved isSpace content.receiver (word 8)
    (part 8 (by decide))
  obtain ⟨after, third, -⟩ := wrote.store_returns spaces reserved isSpace content.data (word 16) (part 16 (by decide))
  refine ⟨after, ?_⟩
  unfold Kernel.storeIpc
  rw [first, ok_bind, second]
  exact third

end Wrote

/-- What the kernel reads where the page is there. -/
theorem load_mapped {kernel : Kernel} {virt count start : Nat} (small : virt < 2 ^ 64)
    (mapped : ∀ offset < count, kernelAddress kernel.vm.mem kernel.sched.cr3 (wrap (virt + offset)) =
      some (start + offset)) :
    kernel.load virt count = .ok (kernel.vm.mem.read start count) := by
  induction count generalizing virt start with
  | zero => rfl
  | succ count ih =>
    have here := mapped 0 (Nat.succ_pos count)
    rw [Nat.add_zero, wrap_of_lt small, Nat.add_zero] at here
    have rest : kernel.load (wrap (virt + 1)) count = .ok (kernel.vm.mem.read (start + 1) count) := by
      refine ih (Nat.mod_lt _ (by decide)) fun offset below => ?_
      rw [wrap_step, mapped (offset + 1) (by omega)]
      congr 1
      omega
    unfold Kernel.load Kernel.loadByte
    rw [here, ok_bind, rest]
    rfl

theorem load_field {kernel : Kernel} {msg start field : Nat} (mapped : ∀ offset < ipcSize,
    kernelAddress kernel.vm.mem kernel.sched.cr3 (wrap (msg + offset)) = some (start + offset))
      (inside : field + 8 ≤ ipcSize) :
    kernel.load (wrap (msg + field)) 8 = .ok (kernel.vm.mem.read (start + field) 8) := by
  refine load_mapped (Nat.mod_lt _ (by decide)) fun offset below => ?_
  rw [wrap_field, mapped (field + offset) (by omega), Nat.add_assoc]

theorem loadIpc_mapped {kernel : Kernel} {msg start : Nat} (small : msg < 2 ^ 64) (mapped : ∀ offset < ipcSize,
    kernelAddress kernel.vm.mem kernel.sched.cr3 (wrap (msg + offset)) = some (start + offset)) :
    ∃ content, kernel.loadIpc msg = .ok content := by
  have first := load_field mapped (show 0 + 8 ≤ ipcSize by decide)
  rw [Nat.add_zero, wrap_of_lt small] at first
  unfold Kernel.loadIpc
  rw [first, ok_bind, load_field mapped (show 8 + 8 ≤ ipcSize by decide), ok_bind, load_field mapped
    (show 16 + 8 ≤ ipcSize by decide)]
  exact ⟨_, rfl⟩

/-- A pointer to a page that is not there. -/
theorem store_unmapped {kernel after : Kernel} {virt count value : Nat}
    (none : kernelAddress kernel.vm.mem kernel.sched.cr3 virt = none) (some : 0 < count) :
    kernel.store virt count value ≠ .ok after := by
  obtain ⟨rest, rfl⟩ := Nat.exists_eq_succ_of_ne_zero (Nat.ne_of_gt some)
  intro ran
  obtain ⟨middle, first, -⟩ := bind_ok ran
  unfold Kernel.storeByte at first
  rw [none] at first
  cases first

end Navy
