import Navy.Liballoc

/-! The headers of liballoc in memory: which bytes a member takes, and what storing
one means for the others. -/

namespace Navy.Liballoc

/-- A pointer to a header that the direct map has in whole. -/
def Direct (pointer : Nat) : Prop := mmapIoBase ≤ pointer ∧ pointer + 40 ≤ 2 ^ 64

/-- The headers behind two pointers share no byte. -/
def Clear (first second : Nat) : Prop := first + 40 ≤ second ∨ second + 40 ≤ first

/-- The frame byte behind an address of the direct map. -/
def physical (address : Nat) : Nat := address - mmapIoBase

theorem physical_add (place : Nat) : physical (place + mmapIoBase) = place := by
  unfold physical
  omega

theorem ioToPhys_eq {address : Nat} (low : mmapIoBase ≤ address) (high : address < 2 ^ 64) :
    mmapIoToPhys (wrap address) = physical address := by
  unfold mmapIoToPhys physical
  simp only [wrapSub, wrap, mmapIoBase] at low ⊢
  omega

variable {mem : Bytes} {heap : Liballoc} {pointer other value : Nat} {field : Field}

theorem member_place (direct : Direct pointer) (inside : field.offset + field.count ≤ 40) (positive : 0 < field.count) :
    mmapIoToPhys (wrap (pointer + field.offset)) = physical pointer + field.offset := by
  obtain ⟨low, high⟩ := direct
  rw [ioToPhys_eq (by omega) (by omega)]
  unfold physical
  omega

theorem MajorField.inside (field : MajorField) : field.field.offset + field.field.count ≤ 40 ∧
    0 < field.field.count := by
  cases field <;> decide

theorem MinorField.inside (field : MinorField) : field.field.offset + field.field.count ≤ 40 ∧
    0 < field.field.count := by
  cases field <;> decide

theorem load_major (direct : Direct pointer) (field : MajorField) :
    heap.load pointer field = .ok (member heap.kernel.vm.mem pointer field) := by
  obtain ⟨low, high⟩ := direct
  have := field.inside
  unfold load
  rw [check_true _ (by rw [wrap_of_lt (by omega)]; omega)]
  rfl

theorem load_minor (direct : Direct pointer) (field : MinorField) :
    heap.load pointer field = .ok (member heap.kernel.vm.mem pointer field) := by
  obtain ⟨low, high⟩ := direct
  have := field.inside
  unfold load
  rw [check_true _ (by rw [wrap_of_lt (by omega)]; omega)]
  rfl

theorem store_major (direct : Direct pointer) (field : MajorField) :
    heap.store pointer field value = .ok (heap.withMem (setMember heap.kernel.vm.mem pointer field value)) := by
  obtain ⟨low, high⟩ := direct
  have := field.inside
  unfold store
  rw [check_true _ (by rw [wrap_of_lt (by omega)]; omega)]
  rfl

theorem store_minor (direct : Direct pointer) (field : MinorField) :
    heap.store pointer field value = .ok (heap.withMem (setMember heap.kernel.vm.mem pointer field value)) := by
  obtain ⟨low, high⟩ := direct
  have := field.inside
  unfold store
  rw [check_true _ (by rw [wrap_of_lt (by omega)]; omega)]
  rfl

section Steps

variable {β : Type} (direct : Direct pointer)
include direct

theorem load_major_bind (field : MajorField) (next : Nat → Checked β) :
    (heap.load pointer field >>= next) = next (member heap.kernel.vm.mem pointer field) := by
  rw [load_major direct, Outcome.ok_bind]

theorem load_minor_bind (field : MinorField) (next : Nat → Checked β) :
    (heap.load pointer field >>= next) = next (member heap.kernel.vm.mem pointer field) := by
  rw [load_minor direct, Outcome.ok_bind]

theorem store_major_bind (field : MajorField) (next : Liballoc → Checked β) :
    (heap.store pointer field value >>= next) = next
    (heap.withMem (setMember heap.kernel.vm.mem pointer field value)) := by
  rw [store_major direct, Outcome.ok_bind]

theorem store_minor_bind (field : MinorField) (next : Liballoc → Checked β) :
    (heap.store pointer field value >>= next) = next
    (heap.withMem (setMember heap.kernel.vm.mem pointer field value)) := by
  rw [store_minor direct, Outcome.ok_bind]

end Steps

@[simp] theorem withMem_mem (heap : Liballoc) (mem : Bytes) : (heap.withMem mem).kernel.vm.mem = mem := rfl

@[simp] theorem withMem_withMem (heap : Liballoc) (first last : Bytes) :
    (heap.withMem first).withMem last = heap.withMem last := rfl

/-- A store leaves every byte outside its member. -/
theorem setMember_apart (direct : Direct pointer) (inside : field.offset + field.count ≤ 40)
    (positive : 0 < field.count) {place : Nat}
    (apart : place < physical pointer + field.offset ∨ physical pointer + field.offset + field.count ≤ place) :
    setMember mem pointer field value place = mem place := by
  unfold setMember
  rw [member_place direct inside positive]
  exact Bytes.write_apart _ _ _ _ _ apart

theorem member_congr {after : Bytes} (direct : Direct pointer) (inside : field.offset + field.count ≤ 40)
    (positive : 0 < field.count)
    (same : ∀ place, physical pointer + field.offset ≤ place →
      place < physical pointer + field.offset + field.count → after place = mem place) :
    member after pointer field = member mem pointer field := by
  unfold member
  rw [member_place direct inside positive]
  exact Bytes.read_congr same

theorem member_self (direct : Direct pointer) (inside : field.offset + field.count ≤ 40) (positive : 0 < field.count) :
    member (setMember mem pointer field value) pointer field = value % 256 ^ field.count := by
  unfold member setMember
  rw [member_place direct inside positive]
  exact Bytes.read_write _ _ _ _

private theorem member_clear {field' : Field} (direct : Direct pointer) (direct' : Direct other)
    (inside : field.offset + field.count ≤ 40) (positive : 0 < field.count)
    (inside' : field'.offset + field'.count ≤ 40) (positive' : 0 < field'.count)
    (apart : other + field'.offset + field'.count ≤ pointer + field.offset ∨ pointer + field.offset + field.count ≤
      other + field'.offset) :
    member (setMember mem pointer field value) other field' = member mem other field' := by
  apply member_congr direct' inside' positive'
  intro place low high
  apply setMember_apart direct inside positive
  unfold Direct at direct direct'
  unfold physical at low high ⊢
  omega

/-- Headers of which no two overlap. -/
structure Family (headers : Nat → Prop) : Prop where
  direct : ∀ pointer, headers pointer → Direct pointer
  clear : ∀ first second, headers first → headers second → first = second ∨ Clear first second

variable {headers : Nat → Prop}

theorem Family.minor (family : Family headers) (here : headers pointer) (there : headers other)
    (field field' : MinorField) :
    member (setMember mem pointer field value) other field' =
      if other = pointer ∧ field' = field then value % 256 ^ field.field.count else member mem other field' := by
  split
  next same =>
    obtain ⟨rfl, rfl⟩ := same
    exact member_self (family.direct _ here) field'.inside.1 field'.inside.2
  next different =>
    apply member_clear (family.direct _ here)
      (family.direct _ there) field.inside.1 field.inside.2 field'.inside.1 field'.inside.2
    rcases family.clear _ _ here there with rfl | clear
    · have fields : field' ≠ field := fun same => different ⟨rfl, same⟩
      revert fields
      cases field <;> cases field' <;> simp [MinorField.field]
    · have := field.inside
      have := field'.inside
      unfold Clear at clear
      omega

theorem Family.major (family : Family headers) (here : headers pointer) (there : headers other)
    (field field' : MajorField) :
    member (setMember mem pointer field value) other field' =
      if other = pointer ∧ field' = field then value % 256 ^ field.field.count else member mem other field' := by
  split
  next same =>
    obtain ⟨rfl, rfl⟩ := same
    exact member_self (family.direct _ here) field'.inside.1 field'.inside.2
  next different =>
    apply member_clear (family.direct _ here)
      (family.direct _ there) field.inside.1 field.inside.2 field'.inside.1 field'.inside.2
    rcases family.clear _ _ here there with rfl | clear
    · have fields : field' ≠ field := fun same => different ⟨rfl, same⟩
      revert fields
      cases field <;> cases field' <;> simp [MajorField.field]
    · have := field.inside
      have := field'.inside
      unfold Clear at clear
      omega

/-- A member of another header. -/
theorem Family.apart (family : Family headers) (here : headers pointer) (there : headers other)
    (different : other ≠ pointer) {field' : Field} (inside : field.offset + field.count ≤ 40 ∧ 0 < field.count)
    (inside' : field'.offset + field'.count ≤ 40 ∧ 0 < field'.count) :
    member (setMember mem pointer field value) other field' = member mem other field' := by
  apply member_clear (family.direct _ here) (family.direct _ there) inside.1 inside.2 inside'.1 inside'.2
  rcases family.clear _ _ here there with same | clear
  · exact absurd same.symm different
  · unfold Clear at clear
    omega

end Navy.Liballoc
