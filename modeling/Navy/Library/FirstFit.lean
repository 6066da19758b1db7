import Mathlib.Data.List.Basic
import Mathlib.Algebra.BigOperators.Group.List.Basic
import Mathlib.Algebra.GroupWithZero.Nat

/-! First fit: items that lie one behind the other in a stretch of places, and the
search for the first gap between them that a new one fits into. -/

namespace FirstFit

variable {α : Type} (start stop : α → Nat)

/-- The items lie in order between two places and do not meet. -/
def Packed (low high : Nat) : List α → Prop
  | [] => low ≤ high
  | item :: rest => low ≤ start item ∧ start item ≤ stop item ∧ Packed (stop item) high rest

/-- The place where the gap behind some items begins. -/
def behind (low : Nat) : List α → Nat
  | [] => low
  | item :: rest => behind (stop item) rest

/-- The place where the gap in front of some items ends. -/
def before (high : Nat) : List α → Nat
  | [] => high
  | item :: _ => start item

/-- The items in front of the first gap of a size, and those behind it. -/
def fit (need high : Nat) : Nat → List α → Option (List α × List α)
  | low, [] => if low + need ≤ high then some ([], []) else none
  | low, item :: rest =>
    if low + need ≤ start item then some ([], item :: rest)
    else (fit need high (stop item) rest).map fun found => (item :: found.1, found.2)

/-- The places the items take. -/
def taken (items : List α) : Nat := (items.map fun item => stop item - start item).sum

variable {start stop} {low high need : Nat} {items left right : List α} {item new : α}

theorem packed_append : Packed start stop low high (left ++ right) ↔
    Packed start stop low (behind stop low left) left ∧ Packed start stop (behind stop low left) high right := by
  induction left generalizing low with
  | nil => simp [Packed, behind]
  | cons item rest ih => simp only [List.cons_append, Packed, behind, ih, and_assoc]

theorem Packed.room (packed : Packed start stop low high items) : low + taken start stop items ≤ high := by
  induction items generalizing low with
  | nil => exact packed
  | cons item rest ih =>
    obtain ⟨first, whole, others⟩ := packed
    have := ih others
    simp only [taken, List.map_cons, List.sum_cons] at this ⊢
    omega

theorem taken_append : taken start stop (left ++ right) = taken start stop left + taken start stop right := by
  simp [taken]

theorem taken_cons : taken start stop (item :: right) = stop item - start item + taken start stop right := by
  simp [taken]

/-- Items that take some room are no more than the places they take. -/
theorem length_le_taken (proper : ∀ item ∈ items, start item < stop item) : items.length ≤ taken start stop items := by
  induction items with
  | nil => exact Nat.zero_le _
  | cons item rest ih =>
    have here := proper item List.mem_cons_self
    have others := ih fun item member => proper item (List.mem_cons_of_mem _ member)
    rw [taken_cons, List.length_cons]
    omega

theorem Packed.start_le (packed : Packed start stop low high items) : low ≤ high := by
  have := packed.room
  omega

theorem Packed.mono (packed : Packed start stop low high items) {lower : Nat} (less : lower ≤ low) :
    Packed start stop lower high items := by
  cases items with
  | nil => exact Nat.le_trans less packed
  | cons item rest => exact ⟨Nat.le_trans less packed.1, packed.2⟩

theorem Packed.bounds (packed : Packed start stop low high items) (member : item ∈ items) :
    low ≤ start item ∧ start item ≤ stop item ∧ stop item ≤ high := by
  induction items generalizing low with
  | nil => cases member
  | cons first rest ih =>
    obtain ⟨here, whole, others⟩ := packed
    rcases List.mem_cons.mp member with rfl | inside
    · exact ⟨here, whole, others.start_le⟩
    · have := ih others inside
      omega

/-- Of two items one ends where the other has not begun. -/
theorem Packed.apart (packed : Packed start stop low high items) {other : α} (one : item ∈ items)
    (two : other ∈ items) : item = other ∨ stop item ≤ start other ∨ stop other ≤ start item := by
  induction items generalizing low with
  | nil => cases one
  | cons first rest ih =>
    obtain ⟨-, -, others⟩ := packed
    rcases List.mem_cons.mp one with rfl | front
    · rcases List.mem_cons.mp two with rfl | back
      · exact .inl rfl
      · exact .inr (.inl (others.bounds back).1)
    · rcases List.mem_cons.mp two with rfl | back
      · exact .inr (.inr (others.bounds front).1)
      · exact ih others front back

/-- Items that take some room begin at different places. -/
theorem Packed.unique (packed : Packed start stop low high items) (proper : ∀ item ∈ items, start item < stop item) :
    (items.map start).Nodup := by
  induction items generalizing low with
  | nil => exact .nil
  | cons first rest ih =>
    obtain ⟨-, -, others⟩ := packed
    have here := proper first List.mem_cons_self
    refine List.nodup_cons.mpr ⟨fun member => ?_, ih others fun item member =>
      proper item (List.mem_cons_of_mem _ member)⟩
    obtain ⟨item, inside, same⟩ := List.mem_map.mp member
    have := (others.bounds inside).1
    omega

/-- Moving the place in front of items up to the first of them. -/
theorem Packed.shift (packed : Packed start stop low high items) {lower : Nat}
    (less : lower ≤ before start high items) : Packed start stop lower high items := by
  cases items with
  | nil => exact less
  | cons first rest => exact ⟨less, packed.2⟩

theorem Packed.insert (packed : Packed start stop low high (left ++ right))
    (begins : behind stop low left ≤ start new) (whole : start new ≤ stop new)
    (ends : stop new ≤ before start high right) :
    Packed start stop low high (left ++ new :: right) := by
  obtain ⟨front, rest⟩ := packed_append.mp packed
  exact packed_append.mpr ⟨front, begins, whole, rest.shift ends⟩

theorem Packed.remove (packed : Packed start stop low high (left ++ new :: right)) :
    Packed start stop low high (left ++ right) := by
  obtain ⟨front, begins, whole, rest⟩ := packed_append.mp packed
  exact packed_append.mpr ⟨front, rest.mono (Nat.le_trans begins whole)⟩

theorem fit_some (found : fit start stop need high low items = some (left, right)) :
    items = left ++ right ∧ behind stop low left + need ≤ before start high right := by
  induction items generalizing low left with
  | nil =>
    unfold fit at found
    split at found
    next fits =>
      obtain ⟨rfl, rfl⟩ := Prod.mk.inj (Option.some.inj found)
      exact ⟨rfl, fits⟩
    next => cases found
  | cons item rest ih =>
    unfold fit at found
    split at found
    next fits =>
      obtain ⟨rfl, rfl⟩ := Prod.mk.inj (Option.some.inj found)
      exact ⟨rfl, fits⟩
    next =>
      obtain ⟨⟨front, back⟩, further, same⟩ := Option.map_eq_some_iff.mp found
      obtain ⟨rfl, rfl⟩ := Prod.mk.inj same
      obtain ⟨rfl, fits⟩ := ih further
      exact ⟨rfl, fits⟩

/-- The search fails just where every gap is too small. -/
theorem fit_none : fit start stop need high low items = none ↔
    ∀ left right, items = left ++ right → before start high right < behind stop low left + need := by
  induction items generalizing low with
  | nil =>
    simp only [fit, ite_eq_right_iff, reduceCtorEq, imp_false, Nat.not_le]
    constructor
    · intro small left right split
      obtain ⟨rfl, rfl⟩ := List.append_eq_nil_iff.mp split.symm
      exact small
    · intro small
      exact small [] [] rfl
  | cons item rest ih =>
    unfold fit
    constructor
    · intro failed left right split
      split at failed
      next => cases failed
      next small =>
        cases left with
        | nil =>
          obtain rfl : item :: rest = right := split
          exact Nat.not_le.mp small
        | cons first left =>
          obtain ⟨rfl, rfl⟩ := List.cons.inj split
          exact ih.mp (Option.map_eq_none_iff.mp failed) left right rfl
    · intro small
      have first : start item < low + need := small [] _ rfl
      rw [if_neg (Nat.not_le.mpr first), Option.map_eq_none_iff]
      exact ih.mpr fun left right split => small (item :: left) right (congrArg (item :: ·) split)

/-- Where too little is left in all, no gap fits. -/
theorem fit_full (packed : Packed start stop low high items) (full : high < low + taken start stop items + need) :
    fit start stop need high low items = none := by
  cases found : fit start stop need high low items with
  | none => rfl
  | some parts =>
    obtain ⟨left, right⟩ := parts
    obtain ⟨rfl, fits⟩ := fit_some found
    obtain ⟨front, rest⟩ := packed_append.mp packed
    have early := front.room
    have late := (rest.shift (Nat.le_refl _)).room
    rw [taken_append] at full
    omega

end FirstFit
