import Navy.Proofs.LiballocGround
import Navy.Proofs.LiballocSearch

/-! The list of blocks as a whole: one of them changes, a further one comes, one goes. -/

namespace Navy.Liballoc
open FirstFit LinkedList Outcome

variable {mem after : Bytes} {block block' other : Block} {blocks pre post : List Block}
  {left right : List Chunk} {new : Chunk}
  {heap : Liballoc} {size request : Nat}

theorem Shows.stands (shows : Shows heap blocks) (among : block ∈ blocks) : Stands heap block :=
  ⟨shows.fits block among, shows.shown block among⟩

theorem Shows.links_at (shows : Shows heap (pre ++ block :: post)) :
    member heap.kernel.vm.mem block.base MajorField.prev = (pre.map Block.base).getLastD 0 ∧
      member heap.kernel.vm.mem block.base MajorField.next = (post.map Block.base).headD 0 :=
  shows.listed.links (pre.map Block.base) block.base (post.map Block.base) (by simp)

theorem Shows.distinct (shows : Shows heap blocks) : (blocks.map Block.base).Nodup := by
  have fits := shows.fits
  have apart := shows.apart
  clear shows
  induction blocks with
  | nil => exact .nil
  | cons block rest ih =>
    obtain ⟨here, others⟩ := List.pairwise_cons.mp apart
    refine List.nodup_cons.mpr ⟨fun among =>
      ?_, ih (fun other member => fits other (List.mem_cons_of_mem _ member)) others⟩
    obtain ⟨other, member, same⟩ := List.mem_map.mp among
    have first := fits block List.mem_cons_self
    have last := fits other (List.mem_cons_of_mem _ member)
    have pages := first.pages
    have pages' := last.pages
    rcases here other member with front | back
    · unfold Block.stop at front
      simp only [lPageSize] at front pages
      omega
    · unfold Block.stop at back
      simp only [lPageSize] at back pages'
      omega

/-- There are fewer blocks than addresses. -/
theorem Shows.few (shows : Shows heap blocks) : blocks.length ≤ 2 ^ 64 := by
  have within : blocks.map Block.base ⊆ List.range (2 ^ 64) := by
    intro base among
    obtain ⟨block, member, rfl⟩ := List.mem_map.mp among
    have direct := (shows.fits block member).direct_base.2
    exact List.mem_range.mpr (by omega)
  have count := (shows.distinct.subperm within).length_le
  simpa using count

/-- The heap with another best bet. -/
def bets (heap : Liballoc) (bet : Nat) : Liballoc := { heap with lBestBet := bet }

@[simp] theorem bets_mem (heap : Liballoc) (bet : Nat) : (heap.bets bet).kernel = heap.kernel := rfl

/-- The best bet is only a place to begin. -/
theorem Shows.bets {bet : Nat} (shows : Shows heap blocks) (among : bet = heap.lBestBet ∨ bet ∈ blocks.map Block.base) :
    Shows (heap.bets bet) blocks := by
  obtain ⟨⟨root, links, known, allocated, inuse⟩, shown, fits, apart, given⟩ := shows
  refine ⟨⟨root, links, ?_, allocated, inuse⟩, shown, fits, apart, given⟩
  rcases among with rfl | among
  · exact known
  · exact .inr among

/-- A block that keeps its place has changed, and nothing outside of it has. -/
structure Edited (mem after : Bytes) (block block' : Block) : Prop where
  base : block'.base = block.base
  pages : block'.pages = block.pages
  fits : block'.Fits
  shown : block'.Shown after
  prev : member after block.base MajorField.prev = member mem block.base MajorField.prev
  next : member after block.base MajorField.next = member mem block.base MajorField.next
  outside : ∀ address, mmapIoBase ≤ address → ¬ (block.base ≤ address ∧ address < block.stop) →
    after (physical address) = mem (physical address)

theorem Edited.stop (edited : Edited mem after block block') : block'.stop = block.stop := by
  unfold Block.stop
  rw [edited.base, edited.pages]

/-- A header outside of the block. -/
theorem Edited.member (edited : Edited mem after block block') (fits : other.Fits) (apart : other.Apart block)
    (field : MajorField) : member after other.base field = Liballoc.member mem other.base field := by
  have inside := field.inside
  have direct := fits.direct_base
  have pages := fits.pages
  have low := fits.low
  apply member_congr direct inside.1 inside.2
  intro place first last
  have named : place = physical (place + mmapIoBase) := by
    unfold physical
    omega
  rw [named]
  apply edited.outside _ (by omega)
  unfold Block.Apart Block.stop at apart
  unfold Block.stop physical at *
  simp only [lPageSize] at *
  omega

theorem Edited.shownOther (edited : Edited mem after block block') (fits : other.Fits)
    (apart : other.Apart block) (shown : other.Shown mem) : other.Shown after := by
  have low := fits.low
  refine shown.congr fits fun place first last => ?_
  have named : place = physical (place + mmapIoBase) := by
    unfold physical
    omega
  rw [named]
  apply edited.outside _ (by omega)
  unfold Block.Apart Block.stop at apart
  unfold Block.stop physical at *
  omega

theorem Block.Apart.symm (apart : block.Apart other) : other.Apart block := Or.symm apart

instance : Std.Symm Block.Apart := ⟨fun _ _ => Block.Apart.symm⟩

theorem Shows.apart_at (shows : Shows heap (pre ++ block :: post)) (among : other ∈ pre ++ post) :
    other.Apart block := by
  obtain ⟨-, rest, across⟩ := List.pairwise_append.mp shows.apart
  rcases List.mem_append.mp among with front | back
  · exact across other front block List.mem_cons_self
  · exact ((List.pairwise_cons.mp rest).1 other back).symm

theorem Shows.replace (shows : Shows heap (pre ++ block :: post))
    (edited : Edited heap.kernel.vm.mem after block block') :
    Shows { heap.withMem after with lInuse := wrap (lent (pre ++ block' :: post)) } (pre ++ block' :: post) := by
  have bases : (pre ++ block' :: post).map Block.base = (pre ++ block :: post).map Block.base := by
    simp [edited.base]
  have cases_of {other : Block} (among : other ∈ pre ++ block' :: post) : other = block' ∨ other ∈ pre ++ post := by
    simp only [List.mem_append, List.mem_cons] at among ⊢
    tauto
  have old {other : Block} (among : other ∈ pre ++ post) : other ∈ pre ++ block :: post := by
    simp only [List.mem_append, List.mem_cons] at among ⊢
    tauto
  have kept (field : MajorField) (linked : field = .prev ∨ field = .next) (base : Nat)
    (among : base ∈ (pre ++ block :: post).map Block.base) :
      member after base field = member heap.kernel.vm.mem base field := by
    obtain ⟨other, inside, rfl⟩ := List.mem_map.mp among
    have split : other = block ∨ other ∈ pre ++ post := by
      simp only [List.mem_append, List.mem_cons] at inside ⊢
      tauto
    rcases split with rfl | split
    · rcases linked with rfl | rfl
      · exact edited.prev
      · exact edited.next
    · exact edited.member (shows.fits other inside) (shows.apart_at split) field
  refine ⟨⟨?_, ?_, ?_, ?_, rfl⟩, ?_, ?_, ?_, ?_⟩
  · rw [bases]
    exact shows.listed.root
  · rw [bases]
    exact shows.listed.links.congr (kept .next (.inr rfl)) (kept .prev (.inl rfl))
  · rw [bases]
    exact shows.listed.bet
  · apply Eq.trans shows.listed.allocated
    simp [allocated, edited.pages]
  · intro other among
    rcases cases_of among with rfl | among
    · exact edited.shown
    · exact edited.shownOther (shows.fits other (old among)) (shows.apart_at among) (shows.shown other (old among))
  · intro other among
    rcases cases_of among with rfl | among
    · exact edited.fits
    · exact shows.fits other (old among)
  · obtain ⟨front, rest, across⟩ := List.pairwise_append.mp shows.apart
    obtain ⟨here, back⟩ := List.pairwise_cons.mp rest
    have same {other : Block} (apart : other.Apart block) : other.Apart block' := by
      unfold Block.Apart at apart ⊢
      rwa [edited.stop, edited.base]
    refine List.pairwise_append.mpr ⟨front,
      List.pairwise_cons.mpr ⟨fun other among => (same (here other among).symm).symm, back⟩, ?_⟩
    intro other among other' among'
    rcases List.mem_cons.mp among' with rfl | among'
    · exact same (across other among block List.mem_cons_self)
    · exact across other among other' (List.mem_cons_of_mem _ among')
  · intro other among
    rcases cases_of among with rfl | among
    · have given := shows.given block (by simp)
      refine ⟨fun address low high => given.owned address ?_ ?_, ?_⟩
      · rw [← edited.base]
        exact low
      · rw [← edited.stop]
        exact high
      · rw [edited.base]
        exact given.entry
    · have given := shows.given other (old among)
      exact ⟨given.owned, given.entry⟩

/-- A further chunk changes its block only. -/
theorem Inserted.edited (inserted : Inserted mem after block left new right) (gap : Gap block left new right)
    (fits : block.Fits) (shown : block.Shown mem) : Edited mem after block (block.insert left new right) := by
  have fits' := gap.fits fits
  refine ⟨rfl, rfl, fits', inserted.shownBlock gap fits shown, inserted.majors .prev, inserted.majors .next,
    fun address low outside => ?_⟩
  apply inserted.bytes address low
  · rintro (⟨first, last⟩ | ⟨chunk, among, first, last⟩)
    · have direct := fits.direct_base
      have pages := fits.pages
      unfold Block.inner at last
      unfold Block.stop at outside
      simp only [majorSize, lPageSize] at last outside pages
      omega
    · have bounds := fits.chunk_bounds among
      simp only [minorSize] at last
      omega
  · rintro ⟨first, last⟩
    have bounds : block.base + 40 ≤ new.place ∧ new.place + 40 ≤ new.stop ∧ new.stop ≤ block.stop :=
      fits'.chunk_bounds Block.new_mem
    omega

/-- What `liballoc_malloc` leaves behind that found a gap in a block. -/
theorem Shows.inserted (shows : Shows heap (pre ++ block :: post))
    (inserted : Inserted heap.kernel.vm.mem after block left new right) (gap : Gap block left new right) :
    Shows { heap.withMem after with lInuse := wrap (heap.lInuse + new.size) }
      (pre ++ block.insert left new right :: post) := by
  have edited := inserted.edited gap (shows.fits block (by simp)) (shows.shown block (by simp))
  have replaced := shows.replace edited
  have sum : wrap (heap.lInuse + new.size) = wrap (lent (pre ++ block.insert left new right :: post)) := by
    rw [shows.listed.inuse]
    simp only [lent, List.map_append, List.map_cons, List.sum_append, List.sum_cons, gap.lent]
    unfold wrap
    omega
  rw [sum]
  exact replaced

end Navy.Liballoc
