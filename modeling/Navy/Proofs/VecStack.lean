import Navy.VecMemory
import Navy.Proofs.VecContents

/-! A growable array in memory is a stack. The capacity is a power of two whose
block `realloc` gave, so that no product and no counter wraps. -/

namespace Navy.VecMemory

open Outcome

variable {Books T : Type}

/-- What the macros are for: a list that grows and shrinks at its end. -/
def stackCall (items : List T) : VecCall T → Option (List T × Option T)
  | .init => some ([], none)
  | .push val => some (items ++ [val], none)
  | .pop => items.getLast?.map fun top => (items.dropLast, some top)

/-- The calls in order on an empty stack: what is left and what was popped, `none`
if an empty stack was to be popped. -/
def stackRun (calls : List (VecCall T)) : Option (List T × List T) := CallRuns.viewRun stackCall [] calls

/-- What is relied on of `realloc`: a block has the bytes asked for, less than half
of the address space, and keeps the elements in front of both its ends. -/
structure Reallocates (realloc : Realloc Books T) (size : Nat) : Prop where
  block : ∀ heap ptr request answer after, realloc heap ptr request = (answer, after) → answer ≠ 0 →
    after.size answer = request ∧ request < 2 ^ 63
  kept : ∀ heap ptr request answer after, realloc heap ptr request = (answer, after) → ptr ≠ 0 → answer ≠ 0 →
    ∀ index, (index + 1) * size ≤ heap.size ptr → (index + 1) * size ≤ request → after.slots answer index =
      heap.slots ptr index

/-- `realloc` did not fail. -/
def Answered : Event Books T → Prop
  | .realloc _ ptr => ptr ≠ 0
  | _ => True

instance : DecidablePred (@Answered Books T)
  | .realloc _ ptr => inferInstanceAs (Decidable (ptr ≠ 0))
  | .grown _ _ | .stored _ _ | .called _ _ _ => inferInstanceAs (Decidable True)

def PowerOrZero (capacity : Nat) : Prop := capacity = 0 ∨ ∃ k, capacity = 2 ^ k

/-- What every event of a run is to show. -/
def Sound : Event Books T → Prop
  | .realloc _ _ => True
  | .grown before after => before.capacity < after.capacity ∧ after.length = before.length ∧
      ∀ index < before.length, after.slot index = before.slot index
  | .stored index capacity => index < capacity
  | .called call before after => after.length ≤ after.capacity ∧ PowerOrZero after.capacity ∧
      match call with
      | .init => after.capacity = 0
      | _ => before.capacity ≤ after.capacity

/-- The array as the tables and the mailboxes are modelled. -/
def State.vec (state : State Books T) : Vec T := ⟨state.data, state.slot, state.length, state.capacity⟩

/-- The array shows the items, in a block with room for its capacity. -/
structure Stacks (size : Nat) (state : State Books T) (items : List T) : Prop where
  shows : state.vec.Shows items
  power : PowerOrZero state.capacity
  block : state.capacity ≠ 0 → state.data ≠ 0 ∧ state.heap.size state.data = state.capacity * size
  small : state.capacity * size < 2 ^ 63

variable {realloc : Realloc Books T} {size : Nat} {state after : State Books T} {items : List T} {val : T}

theorem memsz_toNat (narrow : size < 2 ^ 31) : ((BitVec.ofNat 32 size).signExtend 64).toNat = size := by
  have fits : size < 2 ^ 32 := by omega
  have positive : (BitVec.ofNat 32 size).msb = false := by
    rw [BitVec.msb_eq_decide, BitVec.toNat_ofNat, Nat.mod_eq_of_lt fits]
    simpa using narrow
  rw [BitVec.signExtend_eq_setWidth_of_msb_false positive, BitVec.setWidth_ofNat_of_le_of_lt (by decide) fits,
    BitVec.toNat_ofNat]
  exact Nat.mod_eq_of_lt (by omega)

/-- The capacity `vec_expand_` asks for, before the product. -/
def State.next (state : State Books T) : Nat := if state.capacity = 0 then 1 else wrap (state.capacity <<< 1)

/-- The array with the block in its place. -/
def State.replaced (state : State Books T) (ptr : Nat) (heap : Heap Books T) : State Books T :=
  { state with data := ptr, capacity := state.next, heap }

theorem Stacks.init (size : Nat) (state : State Books T) : Stacks size (vecInit state) [] :=
  ⟨⟨rfl, Nat.le_refl 0, nofun⟩, .inl rfl, fun some => absurd rfl some, by simp [vecInit]⟩

/-- The capacity itself is far from wrapping. -/
theorem Stacks.capacity_lt (holds : Stacks size state items) (positive : 0 < size) : state.capacity < 2 ^ 63 :=
  Nat.lt_of_le_of_lt (Nat.le_mul_of_pos_right _ positive) holds.small

theorem Stacks.next_eq (holds : Stacks size state items) (positive : 0 < size) :
    state.next = if state.capacity = 0 then 1 else state.capacity * 2 := by
  have small := holds.capacity_lt positive
  unfold State.next
  rw [Nat.shiftLeft_eq, wrap_of_lt (by omega)]

theorem Stacks.next_power (holds : Stacks size state items) (positive : 0 < size) : PowerOrZero state.next := by
  rw [holds.next_eq positive]
  split
  next => exact .inr ⟨0, rfl⟩
  next some =>
    obtain ⟨k, power⟩ := holds.power.resolve_left some
    exact .inr ⟨k + 1, by rw [power, Nat.pow_succ]⟩

theorem Stacks.lt_next (holds : Stacks size state items) (positive : 0 < size) : state.capacity < state.next := by
  rw [holds.next_eq positive]
  split <;> omega

theorem Stacks.grown_eq (holds : Stacks size state items) (positive : 0 < size)
    (full : state.length + 1 > state.capacity) : state.vec.grown = state.next := by
  unfold Vec.grown State.vec
  rw [if_pos full, Nat.shiftLeft_eq, holds.next_eq positive]

theorem Stacks.request_eq (holds : Stacks size state items) (positive : 0 < size) (narrow : size < 2 ^ 31) :
    wrap (state.next * ((BitVec.ofNat 32 size).signExtend 64).toNat) = state.next * size := by
  rw [memsz_toNat narrow, holds.next_eq positive]
  apply wrap_of_lt
  have small := holds.small
  split
  · omega
  · rw [Nat.mul_right_comm]
    omega

theorem Stacks.inBlock (holds : Stacks size state items) {index : Nat} (inside : index < state.capacity) :
    state.inBlock size index := by
  unfold State.inBlock
  rw [(holds.block (by omega)).2]
  exact Nat.mul_le_mul_right size inside

theorem Stacks.moved (holds : Stacks size state items) (contract : Reallocates realloc size)
    (positive : 0 < size) {ptr : Nat} {heap : Heap Books T}
    (answer : realloc state.heap state.data (state.next * size) = (ptr, heap)) (some : ptr ≠ 0) :
    Stacks size (state.replaced ptr heap) items ∧ ∀ index < state.length, heap.slots ptr index = state.slot index := by
  obtain ⟨bytes, small⟩ := contract.block _ _ _ _ _ answer some
  have larger := holds.lt_next positive
  have kept : ∀ index < state.length, heap.slots ptr index = state.slot index := by
    intro index inside
    have within : index < state.capacity := Nat.lt_of_lt_of_le inside holds.shows.room
    have before := holds.inBlock within
    have behind : (index + 1) * size ≤ state.next * size := Nat.mul_le_mul_right size (by omega)
    exact contract.kept _ _ _ _ _ answer (holds.block (by omega)).1 some index before behind
  refine ⟨⟨⟨holds.shows.length, ?_, fun index inside => ?_⟩, holds.next_power positive, fun _ =>
    ⟨some, bytes⟩, small⟩, kept⟩
  · exact Nat.le_of_lt (Nat.lt_of_le_of_lt holds.shows.room larger)
  · rw [← holds.shows.data index inside]
    exact kept index (Nat.lt_of_lt_of_eq inside holds.shows.length.symm)

theorem vecExpand_full {memsz : BitVec 32} {request ptr : Nat} {heap : Heap Books T}
    (full : wrap (state.length + 1) > state.capacity)
    (asked : wrap (state.next * (memsz.signExtend 64).toNat) = request)
    (answer : realloc state.heap state.data request = (ptr, heap)) :
    vecExpand realloc state memsz = do
      Traced.emit (.realloc request ptr)
      Traced.silent (check (ptr ≠ 0) .assertion)
      Traced.emit (.grown state (state.replaced ptr heap))
      return state.replaced ptr heap := by
  subst asked
  unfold vecExpand
  rw [if_pos full]
  unfold State.next at answer
  dsimp only
  rw [answer]
  rfl

theorem Stacks.expand (holds : Stacks size state items) (contract : Reallocates realloc size) (positive : 0 < size)
    (narrow : size < 2 ^ 31) (fine : Traced.Only Answered (vecExpand realloc state (BitVec.ofNat 32 size))) :
    (∃ after vec, (vecExpand realloc state (BitVec.ofNat 32 size)).outcome = .ok after ∧
      Navy.vecExpand state.vec (some after.data) = .ok vec ∧ vec.Alike after.vec ∧ Stacks size after items) ∧
      Traced.Only Sound (vecExpand realloc state (BitVec.ofNat 32 size)) := by
  have small := holds.capacity_lt positive
  have room : state.length ≤ state.capacity := holds.shows.room
  have exact' : wrap (state.length + 1) = state.length + 1 := wrap_of_lt (by omega)
  by_cases full : state.length + 1 > state.capacity
  · rcases answer : realloc state.heap state.data (state.next * size) with ⟨ptr, heap⟩
    rw [vecExpand_full (by rwa [exact']) (holds.request_eq positive narrow) answer] at fine ⊢
    have asked : Answered (.realloc (state.next * size) ptr : Event Books T) :=
      Traced.only_emit.mp (Traced.only_bind.mp fine).1
    have some : ptr ≠ 0 := asked
    obtain ⟨moved, kept⟩ := holds.moved contract positive answer some
    rw [check_true _ some]
    refine ⟨⟨state.replaced ptr heap, _, rfl, if_pos full, ⟨rfl, rfl, ?_, fun index inside => ?_⟩, moved⟩, ?_⟩
    · exact holds.grown_eq positive full
    · have within : index < state.capacity := Nat.lt_of_lt_of_le inside room
      exact (if_pos within).trans (kept index inside).symm
    · have grown : Sound (.grown state (state.replaced ptr heap)) := ⟨holds.lt_next positive, rfl, kept⟩
      simp only [Traced.only_bind, Traced.only_emit]
      exact ⟨trivial, fun _ _ => ⟨Traced.only_silent _, fun _ _ => ⟨grown, fun _ _ => Traced.only_pure _⟩⟩⟩
  · unfold vecExpand
    rw [exact', if_neg full]
    exact ⟨⟨state, state.vec, rfl, if_neg full, .refl _, holds⟩, Traced.only_pure _⟩

theorem Heap.write_here (heap : Heap Books T) (ptr index : Nat) (val : T) :
    (heap.write ptr index val).slots ptr = Function.update (heap.slots ptr) index (some val) :=
  Function.update_self _ _ _

/-- Where there is room, the store is inside the block. -/
theorem Stacks.store (holds : Stacks size state items) (positive : 0 < size)
    (room : state.length < state.capacity) (val : T) :
    ∃ after, (vecStore size state val).outcome = .ok after ∧ after.data = state.data ∧
      Navy.vecStore state.vec val = .ok after.vec ∧ Stacks size after (items ++ [val]) := by
  have small := holds.capacity_lt positive
  have ran : (vecStore size state val).outcome =
      .ok { state with length := wrap (state.length + 1), heap := state.heap.write state.data state.length val } := by
    unfold vecStore
    rw [check_true _ (holds.inBlock room)]
    rfl
  rw [wrap_of_lt (by omega)] at ran
  have written := Heap.write_here state.heap state.data state.length val
  have stored := vecStore_room state.vec val room
  unfold State.vec at stored
  rw [show state.slot = state.heap.slots state.data from rfl, ← written] at stored
  exact ⟨_, ran, rfl, stored, holds.shows.store stored, holds.power, holds.block, holds.small⟩

theorem vecStore_sound (room : state.length < state.capacity) : Traced.Only Sound (vecStore size state val) := by
  unfold vecStore
  have stored : Sound (.stored state.length state.capacity : Event Books T) := room
  simp only [Traced.only_bind, Traced.only_emit]
  exact ⟨stored, fun _ _ => ⟨Traced.only_silent _, fun _ _ => Traced.only_pure _⟩⟩

/-- A push is the push of the other model, with what `realloc` gave as its answer. -/
theorem Stacks.push (holds : Stacks size state items) (contract : Reallocates realloc size) (positive : 0 < size)
    (narrow : size < 2 ^ 31) (fine : Traced.Only Answered (vecPush realloc size state val)) :
    (∃ after vec, (vecPush realloc size state val).outcome = .ok after ∧
      Navy.vecPush state.vec val (some after.data) = .ok vec ∧
      vec.Alike after.vec ∧ Stacks size after (items ++ [val])) ∧ Traced.Only Sound
        (vecPush realloc size state val) := by
  unfold vecPush at fine ⊢
  obtain ⟨⟨middle, wide, first, expanded, alike, shows⟩, early⟩ :=
    holds.expand contract positive narrow (Traced.only_bind.mp fine).1
  have room : middle.length < middle.capacity := by
    obtain ⟨length, capacity, -⟩ := vecExpand_ok expanded
    have larger := Vec.lt_grown holds.shows.room
    rw [← capacity, ← length, alike.length, alike.capacity] at larger
    exact larger
  obtain ⟨after, last, same, stored, ends⟩ := shows.store positive room val
  obtain ⟨vec, put, alike⟩ := alike.store stored
  refine ⟨⟨after, vec, ?_, ?_, alike, ends⟩, ?_⟩
  · rw [Traced.outcome_bind, first, ok_bind, last]
  · rw [Navy.vecPush, same, expanded]
    exact put
  · refine Traced.only_bind.mpr ⟨early, fun value ran => ?_⟩
    obtain rfl := Except.ok.inj (first.symm.trans ran)
    exact vecStore_sound room

/-- A pop is the pop of the other model. -/
theorem Stacks.pop {rest : List T} (holds : Stacks size state (rest ++ [val])) (positive : 0 < size) :
    ∃ after, vecPop size state = .ok (val, after) ∧ Navy.vecPop state.vec = .ok (val, after.vec) ∧
      after.capacity = state.capacity ∧ Stacks size after rest := by
  have small := holds.capacity_lt positive
  have room : state.length ≤ state.capacity := holds.shows.room
  have length : state.length = rest.length + 1 := by
    rw [show state.length = _ from holds.shows.length, List.length_append, List.length_singleton]
  have top : wrapSub state.length 1 = state.length - 1 := by
    unfold wrapSub wrap
    omega
  obtain ⟨⟨popped, vec⟩, ran⟩ := holds.shows.pop_returns (show state.length ≠ 0 by omega)
  obtain ⟨others, same, shows, rfl⟩ := holds.shows.pop ran
  obtain ⟨rfl, rfl⟩ := List.append_singleton_inj.mp same
  have found : state.slot (state.length - 1) = some val := by
    rw [show state.slot _ = _ from holds.shows.data _ (by simp; omega), length]
    simp
  refine ⟨{ state with length := state.length - 1 }, ?_, ran, rfl, shows, holds.power, holds.block, holds.small⟩
  unfold vecPop
  dsimp only
  rw [top, check_true _ (holds.inBlock (by omega)), ok_bind, found]
  rfl

theorem Stacks.use (holds : Stacks size state items) (contract : Reallocates realloc size) (positive : 0 < size)
    (narrow : size < 2 ^ 31) {call : VecCall T} {items' : List T} {result : Option T}
    (allowed : stackCall items call = some (items', result))
    (fine : Traced.Only Answered (vecUse realloc size state call)) :
    (∃ after, (vecUse realloc size state call).outcome = .ok (after, result) ∧ Stacks size after items' ∧
      Sound (.called call state after)) ∧ Traced.Only Sound (vecUse realloc size state call) := by
  cases call with
  | init =>
    obtain ⟨rfl, rfl⟩ := Prod.mk.inj (Option.some.inj allowed)
    have empty := Stacks.init size state
    exact ⟨⟨vecInit state, rfl, empty, empty.shows.room, empty.power, rfl⟩, Traced.only_pure _⟩
  | push val =>
    obtain ⟨rfl, rfl⟩ := Prod.mk.inj (Option.some.inj allowed)
    obtain ⟨⟨after, vec, ran, pushed, alike, ends⟩, sound⟩ :=
      holds.push contract positive narrow (Traced.only_bind.mp fine).1
    have larger : state.capacity ≤ after.capacity := by
      rw [show after.capacity = _ from alike.capacity.symm, vecPush_capacity pushed]
      exact state.vec.le_grown
    refine ⟨⟨after, ?_, ends, ends.shows.room, ends.power, larger⟩, ?_⟩
    · rw [vecUse, Traced.outcome_bind, ran]
      rfl
    · exact Traced.only_bind.mpr ⟨sound, fun _ _ => Traced.only_pure _⟩
  | pop =>
    obtain ⟨val, last, same⟩ := Option.map_eq_some_iff.mp allowed
    obtain ⟨rfl, rfl⟩ := Prod.mk.inj same
    obtain ⟨rest, rfl⟩ := List.getLast?_eq_some_iff.mp last
    rw [List.dropLast_concat]
    obtain ⟨after, ran, -, same, ends⟩ := holds.pop positive
    refine ⟨⟨after, ?_, ends, ends.shows.room, ends.power, Nat.le_of_eq same.symm⟩, ?_⟩
    · rw [vecUse, Traced.outcome_bind, Traced.outcome_silent, ran]
      rfl
    · exact Traced.only_bind.mpr ⟨Traced.only_silent _, fun _ _ => Traced.only_pure _⟩

theorem vecCall_simulates (contract : Reallocates realloc size) (positive : 0 < size) (narrow : size < 2 ^ 31) :
    CallRuns.Simulates (vecCall realloc size) stackCall (Stacks size) Answered Sound := by
  intro state items call items' result holds allowed fine
  unfold vecCall at fine ⊢
  obtain ⟨⟨after, ran, ends, seen⟩, sound⟩ := holds.use contract positive narrow allowed (Traced.only_bind.mp fine).1
  refine ⟨⟨after, ?_, ends⟩, ?_⟩
  · rw [Traced.outcome_bind, ran]
    rfl
  · refine Traced.only_bind.mpr ⟨sound, fun done same => ?_⟩
    obtain rfl := Except.ok.inj (ran.symm.trans same)
    exact Traced.only_bind.mpr ⟨Traced.only_emit.mpr seen, fun _ _ => Traced.only_pure _⟩

/-- What a run of the macros is to do: it comes back with what the stack gave back, in
an array that holds what the stack holds, and every event on the way is sound. -/
structure Simulated (realloc : Realloc Books T) (size : Nat) (start : State Books T) (calls : List (VecCall T))
    (items popped : List T) : Prop where
  ends : ∃ after, (vecRun realloc size start calls).outcome = .ok (after, popped) ∧ after.vec.Shows items ∧
    PowerOrZero after.capacity
  sound : Traced.Only Sound (vecRun realloc size start calls)

/-- Blocks one behind the other, none of which is ever given back. -/
def bumpRealloc : Realloc Nat T := fun heap ptr request =>
  if request < 2 ^ 63 then
    (heap.books, {
      slots := Function.update heap.slots heap.books (if ptr = 0 then fun _ => none else heap.slots ptr)
      size := Function.update heap.size heap.books request
      books := heap.books + request })
  else (0, heap)

theorem bumpRealloc_contract (size : Nat) : Reallocates (bumpRealloc : Realloc Nat T) size := by
  constructor
  · intro heap ptr request answer after ran some
    unfold bumpRealloc at ran
    split at ran
    next small =>
      obtain ⟨rfl, rfl⟩ := Prod.mk.inj ran
      exact ⟨Function.update_self _ _ _, small⟩
    next =>
      obtain ⟨rfl, rfl⟩ := Prod.mk.inj ran
      exact absurd rfl some
  · intro heap ptr request answer after ran old some index _ _
    unfold bumpRealloc at ran
    split at ran
    next =>
      obtain ⟨rfl, rfl⟩ := Prod.mk.inj ran
      dsimp only
      rw [Function.update_self]
    next =>
      obtain ⟨rfl, rfl⟩ := Prod.mk.inj ran
      exact absurd rfl some

/-- An array before its `vec_init`, over a heap with nothing in it. -/
def untouched : State Nat Nat := ⟨7, 7, 7, ⟨fun _ _ => none, fun _ => 0, 4096⟩⟩

/-- An array is a stack, whatever `vec_init` found in it, as long as `realloc` does
not fail and the size of an element is one an `int` can hold. -/
theorem vecRun_stack (realloc : Realloc Books T) (size : Nat) (contract : Reallocates realloc size)
    (positive : 0 < size) (narrow : size < 2 ^ 31) (start : State Books T) (calls : List (VecCall T))
    (items popped : List T) (allowed : stackRun calls = some (items, popped))
    (answered : Traced.Only Answered (vecRun realloc size (vecInit start) calls)) :
    Simulated realloc size (vecInit start) calls items popped := by
  have simulates := vecCall_simulates contract positive narrow
  have empty := Stacks.init size start
  obtain ⟨⟨after, ran, ends⟩, sound⟩ := CallRuns.run_simulates simulates empty allowed answered
  exact ⟨⟨after, ran, ends.shows, ends.power⟩, sound⟩

theorem vecRun_stack_popped : Simulated bumpRealloc 8 (vecInit untouched) [.push 5, .push 6, .pop] [5] [6] :=
  vecRun_stack bumpRealloc 8 (bumpRealloc_contract 8) (by decide)
    (by decide) untouched [.push 5, .push 6, .pop] [5] [6] rfl
    (by unfold Traced.Only; decide)

/-- For elements of 2^32 + 1 bytes a block of one byte is asked for, which the first push
writes past, and a second `vec_init` takes the capacity back to 0. -/
theorem vecRun_wide_elements :
    (¬ ∀ (realloc : Realloc Nat Nat) (size : Nat) (start : State Nat Nat) (calls : List (VecCall Nat))
      (items popped : List Nat), Reallocates realloc size → 0 < size → stackRun calls = some (items, popped) →
        Traced.Only Answered (vecRun realloc size (vecInit start) calls) → Simulated realloc size
          (vecInit start) calls items popped) ∧
    ∃ before after, .called .init before after ∈ (vecRun bumpRealloc 8 (vecInit untouched) [.push 5, .init]).events ∧
      after.capacity < before.capacity := by
  constructor
  · intro simulated
    have wide := simulated bumpRealloc (2 ^ 32 + 1) untouched [.push 5] [5] [] (bumpRealloc_contract _) (by decide) rfl
      (by unfold Traced.Only; decide)
    obtain ⟨after, ran, -⟩ := wide.ends
    have faults : (vecRun bumpRealloc (2 ^ 32 + 1) (vecInit untouched) [.push 5]).outcome = .error .outOfBounds := rfl
    cases faults.symm.trans ran
  · refine ⟨_, _, List.mem_of_getElem? (i := 4) rfl, ?_⟩
    decide

end Navy.VecMemory
