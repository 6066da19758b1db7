import Navy.Vec
import Navy.Library.Outcome

/-! A growable array against the list it holds. Slots from `length` on may keep
what was popped and are not part of the content. -/

namespace Navy

open Outcome

/-- A block on the heap, for the runs where `realloc` always answers the same. -/
def heapBlock : Option Nat := some 0xffff800000100000

variable {T : Type}

structure Vec.Shows (vec : Vec T) (items : List T) : Prop where
  length : vec.length = items.length
  room : vec.length ≤ vec.capacity
  data : ∀ index, index < items.length → vec.data index = items[index]?

theorem Vec.lt_grown {vec : Vec T} (room : vec.length ≤ vec.capacity) : vec.length < vec.grown := by
  unfold Vec.grown
  split
  · split
    · omega
    · rw [Nat.shiftLeft_eq]
      omega
  · omega

theorem Vec.le_grown (vec : Vec T) : vec.capacity ≤ vec.grown := by
  unfold Vec.grown
  split
  · split
    · omega
    · rw [Nat.shiftLeft_eq]
      omega
  · exact Nat.le_refl _

theorem vecExpand_ok {vec after : Vec T} {answer : Option Nat} (ran : vecExpand vec answer = .ok after) :
    after.length = vec.length ∧ after.capacity = vec.grown ∧
      ∀ index, index < vec.capacity → after.data index = vec.data index := by
  unfold vecExpand at ran
  split at ran
  next full =>
    cases answer with
    | none => cases ran
    | some pointer =>
      obtain rfl := Except.ok.inj ran
      exact ⟨rfl, rfl, fun index inside => if_pos inside⟩
  next fits =>
    obtain rfl := Except.ok.inj ran
    exact ⟨rfl, (if_neg fits).symm, fun _ _ => rfl⟩

theorem vecExpand_returns {answer : Option Nat} (vec : Vec T) (granted : answer ≠ none) :
    ∃ after, vecExpand vec answer = .ok after := by
  obtain ⟨pointer, rfl⟩ := Option.ne_none_iff_exists'.mp granted
  unfold vecExpand
  split
  · exact ⟨_, rfl⟩
  · exact ⟨_, rfl⟩

/-- Which block a push leaves the array in. -/
theorem vecPush_pointer {vec after : Vec T} {val : T} {answer : Option Nat} (ran : vecPush vec val answer = .ok after) :
    after.pointer = if vec.length + 1 > vec.capacity then answer.getD 0 else vec.pointer := by
  obtain ⟨middle, first, last⟩ := bind_ok ran
  obtain ⟨⟨⟩, -, rest⟩ := bind_ok last
  obtain rfl := Except.ok.inj rest
  unfold vecExpand at first
  split at first
  next full =>
    rw [if_pos full]
    cases answer with
    | none => cases first
    | some pointer =>
      obtain rfl := Except.ok.inj first
      rfl
  next fits =>
    rw [if_neg fits]
    obtain rfl := Except.ok.inj first
    rfl

theorem vecStore_ok {vec after : Vec T} {val : T} (ran : vecStore vec val = .ok after) :
    vec.length < vec.capacity ∧
      after = { vec with data := Function.update vec.data vec.length (some val), length := vec.length + 1 } := by
  obtain ⟨⟨⟩, checked, rest⟩ := bind_ok ran
  exact ⟨check_ok checked, (Except.ok.inj rest).symm⟩

theorem vecStore_room (vec : Vec T) (val : T) (room : vec.length < vec.capacity) :
    vecStore vec val = .ok { vec with data := Function.update vec.data vec.length (some val), length := vec.length + 1 } := by
  unfold vecStore
  rw [check_true _ room]
  rfl

theorem vecPush_capacity {vec after : Vec T} {val : T} {answer : Option Nat}
    (ran : vecPush vec val answer = .ok after) : after.capacity = vec.grown := by
  obtain ⟨middle, first, last⟩ := bind_ok ran
  obtain ⟨-, rfl⟩ := vecStore_ok last
  exact (vecExpand_ok first).2.1

theorem Vec.get_modify (vec : Vec T) (index : Nat) (val : T) : (vec.modify index val).get index = .ok val := by
  simp only [Vec.get, Vec.modify, Function.update_self]

theorem Vec.modify_modify (vec : Vec T) (index : Nat) (first last : T) :
    (vec.modify index first).modify index last = vec.modify index last := by
  simp only [Vec.modify, Function.update_idem]

theorem Vec.modify_self {vec : Vec T} {index : Nat} {val : T} (got : vec.get index = .ok val) :
    vec.modify index val = vec := by
  unfold Vec.get at got
  split at got
  next found here =>
    obtain rfl := Except.ok.inj got
    unfold Vec.modify
    rw [← here, Function.update_eq_self]
  next => cases got

/-- Two views of one array, which may differ in slots nothing was stored in. -/
structure Vec.Alike (first second : Vec T) : Prop where
  pointer : first.pointer = second.pointer
  length : first.length = second.length
  capacity : first.capacity = second.capacity
  data : ∀ index < first.length, first.data index = second.data index

theorem Vec.Alike.refl (vec : Vec T) : vec.Alike vec := ⟨rfl, rfl, rfl, fun _ _ => rfl⟩

theorem Vec.Alike.shows {first second : Vec T} {items : List T} (alike : first.Alike second)
    (shows : first.Shows items) : second.Shows items := by
  refine ⟨alike.length.symm.trans shows.length, ?_, fun index inside => ?_⟩
  · rw [← alike.length, ← alike.capacity]
    exact shows.room
  · rw [← alike.data index (shows.length ▸ inside)]
    exact shows.data index inside

theorem Vec.Alike.store {first second after : Vec T} {val : T} (alike : first.Alike second) (ran : vecStore second val = .ok after) :
    ∃ other, vecStore first val = .ok other ∧ other.Alike after := by
  obtain ⟨room, rfl⟩ := vecStore_ok ran
  rw [← alike.length, ← alike.capacity] at room
  refine ⟨_, vecStore_room first val room, alike.pointer, congrArg (· + 1) alike.length, alike.capacity, fun index inside => ?_⟩
  show Function.update first.data first.length (some val) index = Function.update second.data second.length (some val) index
  rw [← alike.length]
  by_cases last : index = first.length
  · rw [last, Function.update_self, Function.update_self]
  · rw [Function.update_of_ne last, Function.update_of_ne last]
    exact alike.data index (Nat.lt_of_le_of_ne (Nat.le_of_lt_succ inside) last)

namespace Vec.Shows

variable {vec after : Vec T} {items : List T} {val : T} {answer : Option Nat} {index : Nat}

theorem init : (vecInit : Vec T).Shows [] := ⟨rfl, Nat.le_refl _, nofun⟩

theorem expand (shows : vec.Shows items) (ran : vecExpand vec answer = .ok after) : after.Shows items := by
  obtain ⟨length, capacity, kept⟩ := vecExpand_ok ran
  refine ⟨length.trans shows.length, ?_, fun index inside => ?_⟩
  · rw [length, capacity]
    exact Nat.le_of_lt (Vec.lt_grown shows.room)
  · have stored : index < vec.capacity := by
      have := shows.room
      rw [shows.length] at this
      omega
    rw [kept index stored]
    exact shows.data index inside

theorem store (shows : vec.Shows items) (ran : vecStore vec val = .ok after) : after.Shows (items ++ [val]) := by
  obtain ⟨room, rfl⟩ := vecStore_ok ran
  have length := shows.length
  refine ⟨by simp [length], room, fun index inside => ?_⟩
  rw [List.length_append, List.length_singleton] at inside
  show Function.update vec.data vec.length (some val) index = _
  by_cases last : index = vec.length
  · subst last
    simp [length]
  · rw [Function.update_of_ne last, List.getElem?_append_left (by omega)]
    exact shows.data index (by omega)

theorem push (shows : vec.Shows items) (ran : vecPush vec val answer = .ok after) : after.Shows (items ++ [val]) := by
  obtain ⟨middle, first, last⟩ := bind_ok ran
  exact (shows.expand first).store last

theorem push_returns (shows : vec.Shows items) (answer : Option Nat) (granted : answer ≠ none) (val : T) :
    ∃ after, vecPush vec val answer = .ok after := by
  obtain ⟨middle, expanded⟩ := vecExpand_returns vec granted
  obtain ⟨length, capacity, -⟩ := vecExpand_ok expanded
  have room : middle.length < middle.capacity := by
    rw [length, capacity]
    exact Vec.lt_grown shows.room
  unfold vecPush
  rw [expanded, ok_bind, vecStore_room middle val room]
  exact ⟨_, rfl⟩

theorem get_ok (shows : vec.Shows items) (ran : vec.get index = .ok val) (inside : index < items.length) :
    items[index]? = some val := by
  unfold Vec.get at ran
  rw [shows.data index inside] at ran
  split at ran
  next found same =>
    rw [same, Except.ok.inj ran]
  next => cases ran

theorem get_some (shows : vec.Shows items) (found : items[index]? = some val) : vec.get index = .ok val := by
  have inside := (List.getElem?_eq_some_iff.mp found).1
  unfold Vec.get
  rw [shows.data index inside, found]

theorem pop (shows : vec.Shows items) (ran : vecPop vec = .ok (val, after)) :
    ∃ rest, items = rest ++ [val] ∧ after.Shows rest ∧ after = { vec with length := vec.length - 1 } := by
  obtain ⟨⟨⟩, checked, rest⟩ := bind_ok ran
  obtain ⟨found, got, rest⟩ := bind_ok rest
  obtain ⟨rfl, rfl⟩ := Prod.mk.inj (Except.ok.inj rest)
  have some := check_ok checked
  have length := shows.length
  have last := shows.get_ok got (by omega)
  rw [length, ← List.getLast?_eq_getElem?] at last
  obtain ⟨rest, rfl⟩ := List.getLast?_eq_some_iff.mp last
  rw [List.length_append, List.length_singleton] at length
  refine ⟨rest, rfl, ⟨?_, ?_, fun index inside => ?_⟩, rfl⟩
  · show vec.length - 1 = rest.length
    omega
  · exact Nat.le_trans (Nat.sub_le _ _) shows.room
  · rw [← List.getElem?_append_left inside]
    apply shows.data
    simp only [List.length_append]
    omega

theorem pop_returns (shows : vec.Shows items) (some : vec.length ≠ 0) : ∃ popped, vecPop vec = .ok popped := by
  have length := shows.length
  have inside : vec.length - 1 < items.length := by omega
  have got := shows.get_some (List.getElem?_eq_getElem inside)
  unfold vecPop
  rw [check_true _ (by omega), ok_bind, got]
  exact ⟨_, rfl⟩

theorem modify (shows : vec.Shows items) (index : Nat) (val : T) :
    (vec.modify index val).Shows (items.set index val) := by
  refine ⟨by simp [Vec.modify, shows.length], shows.room, fun place inside => ?_⟩
  rw [List.length_set] at inside
  show Function.update vec.data index (some val) place = _
  by_cases same : place = index
  · subst same
    simp [inside]
  · rw [Function.update_of_ne same, List.getElem?_set_ne (Ne.symm same)]
    exact shows.data place inside

end Vec.Shows

end Navy
