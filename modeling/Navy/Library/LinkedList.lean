import Mathlib.Data.List.Basic

/-! Doubly linked lists, seen through the functions that follow their links. Both
ends point to what the list hangs between. -/

namespace LinkedList

variable {A : Type}

/-- Each item points to the one in front of it and the one behind it. -/
def Linked (next prev : A → A) (before after : A) (items : List A) : Prop :=
  ∀ left item right, items = left ++ item :: right → prev item = left.getLastD before ∧ next item = right.headD after

variable {next prev next' prev' : A → A} {before after new : A} {left right items : List A}

theorem linked_nil : Linked next prev before after [] := by
  intro left item right split
  simp at split

/-- Only the links of the items count. -/
theorem Linked.congr (linked : Linked next prev before after items) (forth : ∀ item ∈ items, next' item = next item)
    (back : ∀ item ∈ items, prev' item = prev item) : Linked next' prev' before after items := by
  intro left item right split
  have member : item ∈ items := by simp [split]
  rw [forth item member, back item member]
  exact linked left item right split

private theorem apart_last {item : A} {rest : List A} (unique : (left ++ rest).Nodup) (member : item ∈ rest) :
    left.getLast? ≠ some item := by
  intro last
  have inside := List.mem_of_getLast? last
  exact (List.nodup_append.mp unique).2.2 item inside item member rfl

private theorem apart_head {item : A} {rest : List A} (unique : (rest ++ right).Nodup) (member : item ∈ rest) :
    right.head? ≠ some item := by
  intro first
  have inside := List.mem_of_head? first
  exact (List.nodup_append.mp unique).2.2 item member item inside rfl

private theorem apart_front {head item : A} {more rest : List A}
    (unique : (left ++ (head :: more ++ item :: rest)).Nodup) :
    (head :: more ++ item :: rest).head? ≠ some item := by
  intro same
  obtain rfl : head = item := by simpa using same
  have tail := (List.nodup_append.mp unique).2.1
  rw [List.cons_append, List.nodup_cons] at tail
  simp at tail

private theorem apart_back {head item : A} {more rest : List A}
    (unique : (left ++ item :: head :: more ++ rest).Nodup) :
    (left ++ item :: head :: more).getLast? ≠ some item := by
  intro same
  rw [List.getLast?_append_of_ne_nil _ (by simp), List.getLast?_cons_cons] at same
  have inside := List.mem_of_getLast? same
  have tail := (List.nodup_append.mp (List.nodup_append.mp unique).1).2.1
  exact (List.nodup_cons.mp tail).1 inside

/-- An item put between two others: they turn to it, and every other link stays. -/
theorem Linked.insert (linked : Linked next prev before after (left ++ right))
    (unique : (left ++ new :: right).Nodup) (forth : next' new = right.headD after)
    (back : prev' new = left.getLastD before) (last : ∀ item, left.getLast? = some item → next' item = new)
    (first : ∀ item, right.head? = some item → prev' item = new)
    (forths : ∀ item ∈ left ++ right, left.getLast? ≠ some item → next' item = next item)
    (backs : ∀ item ∈ left ++ right, right.head? ≠ some item → prev' item = prev item) :
    Linked next' prev' before after (left ++ new :: right) := by
  have old : (left ++ right).Nodup := unique.sublist (List.Sublist.append_left (List.sublist_cons_self _ _) _)
  intro front item rest split
  rcases List.append_eq_append_iff.mp split with ⟨more, rfl, inner⟩ | ⟨more, rfl, inner⟩
  · cases more with
    | nil =>
      obtain ⟨rfl, rfl⟩ := List.cons.inj inner
      rw [List.append_nil]
      exact ⟨back, forth⟩
    | cons head more =>
      obtain ⟨rfl, rfl⟩ := List.cons.inj inner
      obtain ⟨prevs, nexts⟩ := linked (left ++ more) item rest (by simp)
      have inside : item ∈ more ++ item :: rest := by simp
      rw [forths item (by simp) (apart_last old inside)]
      refine ⟨?_, nexts⟩
      cases more with
      | nil => simp [first item rfl]
      | cons head' more =>
        rw [backs item (by simp) (apart_front old), prevs]
        simp
  · cases more with
    | nil =>
      obtain ⟨rfl, rfl⟩ := List.cons.inj inner
      rw [List.append_nil] at back
      exact ⟨back, forth⟩
    | cons head more =>
      obtain ⟨rfl, rfl⟩ := List.cons.inj inner
      obtain ⟨prevs, nexts⟩ := linked front item (more ++ right) (by simp)
      have inside : item ∈ front ++ item :: more := by simp
      rw [backs item (by simp) (apart_head old inside)]
      refine ⟨prevs, ?_⟩
      cases more with
      | nil => simp [last item (by simp)]
      | cons head' more =>
        rw [forths item (by simp) (apart_back old), nexts]
        simp

/-- An item taken out: its neighbours turn to each other. -/
theorem Linked.remove (linked : Linked next prev before after (left ++ new :: right))
    (unique : (left ++ new :: right).Nodup)
    (last : ∀ item, left.getLast? = some item → next' item = right.headD after)
    (first : ∀ item, right.head? = some item → prev' item = left.getLastD before)
    (forths : ∀ item ∈ left ++ right, left.getLast? ≠ some item → next' item = next item)
    (backs : ∀ item ∈ left ++ right, right.head? ≠ some item → prev' item = prev item) :
    Linked next' prev' before after (left ++ right) := by
  have old : (left ++ right).Nodup := unique.sublist (List.Sublist.append_left (List.sublist_cons_self _ _) _)
  intro front item rest split
  rcases List.append_eq_append_iff.mp split with ⟨more, rfl, rfl⟩ | ⟨more, rfl, inner⟩
  · obtain ⟨prevs, nexts⟩ := linked (left ++ new :: more) item rest (by simp)
    have inside : item ∈ more ++ item :: rest := by simp
    rw [forths item (by simp) (apart_last old inside)]
    refine ⟨?_, nexts⟩
    cases more with
    | nil => simp [first item rfl]
    | cons head more =>
      rw [backs item (by simp) (apart_front old), prevs]
      simp
  · cases more with
    | nil =>
      obtain rfl : item :: rest = right := inner
      obtain ⟨prevs, nexts⟩ := linked (front ++ [new]) item rest (by simp)
      have inside : item ∈ item :: rest := by simp
      rw [List.append_nil] at old last forths first
      rw [forths item (by simp) (apart_last old inside), first item rfl]
      exact ⟨rfl, nexts⟩
    | cons head more =>
      obtain ⟨rfl, rfl⟩ := List.cons.inj inner
      obtain ⟨prevs, nexts⟩ := linked front item (more ++ new :: right) (by simp)
      have inside : item ∈ front ++ item :: more := by simp
      rw [backs item (by simp) (apart_head old inside)]
      refine ⟨prevs, ?_⟩
      cases more with
      | nil => simp [last item (by simp)]
      | cons head' more =>
        rw [forths item (by simp) (apart_back old), nexts]
        simp

end LinkedList
