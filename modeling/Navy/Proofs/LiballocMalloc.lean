import Navy.Proofs.LiballocPages

/-! `liballoc_malloc`: the walk through the blocks ends in a gap of one of them, or in a
block of its own where no gap is large enough. -/

namespace Navy.Liballoc
open FirstFit LinkedList Outcome Paging

variable {block new : Block} {blocks pre post : List Block} {heap : Liballoc} {size request fuel best : Nat}
  {started : Bool}
  {initial : Pmm} {roots : Nat → Prop} {root : Nat} {result : Nat × Liballoc}

/-- A request was served from a gap of a block. -/
def Reused (heap : Liballoc) (blocks : List Block) (size request : Nat) (result : Nat × Liballoc) : Prop :=
  ∃ pre block post left right bet after, blocks = pre ++ block :: post ∧ block.fit size = some (left, right) ∧
    (bet = heap.lBestBet ∨ bet ∈ blocks.map Block.base) ∧
    Inserted heap.kernel.vm.mem after block left (block.fresh left size request) right ∧
    result = ((block.fresh left size request).pointer,
      { (heap.bets bet).withMem after with lInuse := wrap (heap.lInuse + size) })

/-- A request was served from a further block, as no gap was large enough. -/
def Expanded (initial : Pmm) (roots : Nat → Prop) (root : Nat) (heap : Liballoc) (blocks : List Block)
    (size request : Nat) (result : Nat × Liballoc) : Prop :=
  ∃ new kernel grown bet after, (∀ block ∈ blocks, block.fit size = none) ∧
    (bet = heap.lBestBet ∨ bet ∈ (blocks ++ [new]).map Block.base) ∧
    Grown initial roots root heap.kernel blocks size new kernel grown ∧ Inserted grown after new []
      (new.fresh [] size request) [] ∧
    result = ((new.fresh [] size request).pointer,
      { (extend (heap.bets bet) kernel after blocks new) with lInuse := wrap (heap.lInuse + size) })

def Served (initial : Pmm) (roots : Nat → Prop) (root : Nat) (heap : Liballoc) (blocks : List Block)
    (size request : Nat) (result : Nat × Liballoc) : Prop :=
  Reused heap blocks size request result ∨ Expanded initial roots root heap blocks size request result

theorem spare_eq (stands : Stands heap block) : heap.spare block.base = .ok (block.pages * lPageSize - block.used) := by
  have direct := stands.fits.direct_base
  have used := stands.fits.used_small
  have pages := stands.fits.pages
  unfold spare
  rw [load_major_bind direct, load_major_bind direct, stands.shown.size, stands.shown.usage]
  unfold wordSub
  congr 1
  omega

/-- Where the room left is too small in all, no gap fits. -/
theorem Block.Fits.full (fits : block.Fits) (short : block.pages * lPageSize - block.used < size + minorSize) :
    block.fit size = none := by
  apply fit_full fits.packed
  have room := fits.room_used
  unfold Block.inner Block.stop Block.used at *
  omega

/-- A block without chunks fits what its room does. -/
theorem Block.Fits.roomy (fits : block.Fits) (empty : block.chunks = [])
    (enough : size + minorSize ≤ block.pages * lPageSize - block.used) :
    block.inner + (size + minorSize) ≤ block.stop := by
  have room := fits.room_used
  unfold Block.inner Block.stop Block.used at *
  rw [empty] at enough room
  simp only [taken, List.map_nil, List.sum_nil, majorSize] at *
  omega

/-- The best bet behind a turn, and the room it has. -/
def turnBet (heap : Liballoc) (block : Block) (best : Nat) : Nat :=
  if best < block.pages * lPageSize - block.used then block.base else heap.lBestBet

def turnSize (block : Block) (best : Nat) : Nat :=
  if best < block.pages * lPageSize - block.used then block.pages * lPageSize - block.used else best

theorem turnBet_known (heap : Liballoc) (best : Nat) (among : block ∈ blocks) :
    heap.turnBet block best = heap.lBestBet ∨ heap.turnBet block best ∈ blocks.map Block.base := by
  unfold turnBet
  split
  · exact .inr (List.mem_map_of_mem among)
  · exact .inl rfl

theorem Block.Fits.not_null (fits : block.Fits) : block.base ≠ 0 := by
  have low := fits.low
  have io : 0 < mmapIoBase := by decide
  omega

section Turn

variable (stands : Stands heap block) {skipped : Checked (Turn × Liballoc)}
  (skip : (heap.bets (heap.turnBet block best)).skipMajor block.base size
    (block.pages * lPageSize - block.used) started = skipped)
include stands skip

theorem turn_eq : mallocLoop size request (fuel + 1) heap block.base started best = (do
    match ← skipped with
    | (.next maj startedBet, heap) => mallocLoop size request fuel heap maj startedBet (turnSize block best)
    | (.look maj, heap) =>
      match ← heap.searchMajor maj size request with
      | some placed => return placed
      | none =>
        let (maj, startedBet, heap) ← heap.leaveMajor maj size started
        mallocLoop size request fuel heap maj startedBet (turnSize block best)) := by
  subst skip
  rw [mallocLoop, if_neg stands.fits.not_null, spare_eq stands, ok_bind]
  unfold turnBet turnSize bets
  split <;> rfl

end Turn

/-- CASE 1, with another block to go on to. -/
theorem skipMajor_next {next : Block} {diff : Nat} (shows : Shows heap (pre ++ block :: next :: post))
    (sound : Sound size request) (short : diff < size + minorSize) :
    heap.skipMajor block.base size diff started =
      .ok (.next next.base started, heap) := by
  have direct := (shows.fits block (by simp)).direct_base
  have named := (shows.fits next (by simp)).not_null
  have link := shows.links_at.2
  simp only [List.map_cons, List.headD_cons] at link
  unfold skipMajor
  rw [wrap_of_lt sound.small, if_pos short, load_major_bind direct, link, if_pos named]
  rfl

/-- CASE 1 at the last block of a walk that began at the best bet. -/
theorem skipMajor_again {diff : Nat} (shows : Shows heap (pre ++ [block])) (sound : Sound size request)
    (short : diff < size + minorSize) :
    heap.skipMajor block.base size diff true = .ok (.next heap.lMemRoot false, heap) := by
  have direct := (shows.fits block (by simp)).direct_base
  have link := shows.links_at.2
  simp only [List.map_nil, List.headD_nil] at link
  unfold skipMajor
  rw [wrap_of_lt sound.small, if_pos short, load_major_bind direct, link]
  rfl

/-- CASE 1 at the last block. -/
theorem skipMajor_last {diff : Nat} (shows : Shows heap (pre ++ [block])) (sound : Sound size request)
    (short : diff < size + minorSize) :
    heap.skipMajor block.base size diff false = heap.appendNewPage block.base size >>= fun grown =>
      .ok (if grown.1 = 0 then .next 0 false else .look grown.1, grown.2) := by
  have direct := (shows.fits block (by simp)).direct_base
  have link := shows.links_at.2
  simp only [List.map_nil, List.headD_nil] at link
  unfold skipMajor
  rw [wrap_of_lt sound.small, if_pos short, load_major_bind direct, link]
  rfl

theorem skipMajor_look {diff : Nat} (sound : Sound size request) (enough : ¬ diff < size + minorSize) {maj : Nat} :
    heap.skipMajor maj size diff started = .ok (.look maj, heap) := by
  unfold skipMajor
  rw [wrap_of_lt sound.small, if_neg enough]
  rfl

/-- CASE 5, in the same three ways. -/
theorem leaveMajor_next {next : Block} (shows : Shows heap (pre ++ block :: next :: post)) :
    heap.leaveMajor block.base size started = .ok (next.base, started, heap) := by
  have direct := (shows.fits block (by simp)).direct_base
  have named := (shows.fits next (by simp)).not_null
  have link := shows.links_at.2
  simp only [List.map_cons, List.headD_cons] at link
  unfold leaveMajor
  rw [load_major_bind direct, link, if_pos named]
  rfl

theorem leaveMajor_again (shows : Shows heap (pre ++ [block])) :
    heap.leaveMajor block.base size true = .ok (heap.lMemRoot, false, heap) := by
  have direct := (shows.fits block (by simp)).direct_base
  have link := shows.links_at.2
  simp only [List.map_nil, List.headD_nil] at link
  unfold leaveMajor
  rw [load_major_bind direct, link]
  rfl

theorem leaveMajor_last (shows : Shows heap (pre ++ [block])) :
    heap.leaveMajor block.base size false = heap.appendNewPage block.base size >>= fun grown => .ok
      (grown.1, false, grown.2) := by
  have direct := (shows.fits block (by simp)).direct_base
  have link := shows.links_at.2
  simp only [List.map_nil, List.headD_nil] at link
  unfold leaveMajor
  rw [load_major_bind direct, link]
  rfl

section Grown

variable {kernel : Kernel} {after : Bytes} {bet : Nat}
  (grown : Grown initial roots root heap.kernel blocks size new kernel after)
  (shows : Shows heap blocks) (ground : Ground initial roots root heap.kernel) (asks : Asks size)
include grown asks

theorem Grown.int : 0 < new.pages ∧ new.pages * pageSize < 2 ^ 31 := by
  rw [grown.pages]
  exact ⟨Nat.lt_of_lt_of_le (by decide) asks.enough.2.1, asks.int⟩

/-- A block that has just come has the room for what it came for. -/
theorem Grown.room : new.used = majorSize ∧ new.inner + (size + minorSize) ≤ new.stop := by
  have enough := asks.enough.1
  rw [← grown.pages] at enough
  constructor
  · rw [Block.used, grown.extended.empty]
    rfl
  · unfold Block.inner Block.stop
    simp only [pageSize, lPageSize] at enough ⊢
    omega

include shows ground

theorem Grown.showing : Shows (extend heap kernel after blocks new) (blocks ++ [new]) := by
  obtain ⟨-, supplied⟩ := ground.supplies grown.asked
  rw [← grown.pages] at supplied
  exact shows.extended supplied grown.extended (grown.int asks)

theorem Grown.named : new.base ≠ 0 := ((grown.showing shows ground asks).fits new (by simp)).not_null

theorem Grown.stands : Stands (extend (heap.bets bet) kernel after blocks new) new := by
  have shows := grown.showing shows ground asks
  exact ⟨shows.fits new (by simp), shows.shown new (by simp)⟩

theorem Grown.serves (sound : Sound size request) (none : ∀ block ∈ blocks, block.fit size = none)
    (known : bet = heap.lBestBet ∨ bet ∈ (blocks ++ [new]).map Block.base) :
    ∃ placed, (extend (heap.bets bet) kernel after blocks new).searchMajor new.base size request = .ok (some placed) ∧
      Expanded initial roots root heap blocks size request placed := by
  have stands : Stands (extend (heap.bets bet) kernel after blocks new) new := grown.stands shows ground asks
  have room := (grown.room asks).2
  have found : new.fit size = some ([], []) := by
    unfold Block.fit
    rw [grown.extended.empty]
    exact if_pos room
  have finds := searchMajor_finds stands sound fun _ => room
  rw [found] at finds
  obtain ⟨placed, ran, filled, same, inserted⟩ := finds
  exact ⟨placed, ran, new, kernel, after, bet, filled, none, known, grown, inserted, Except.ok.inj same⟩

end Grown

theorem Shows.reuses {left right : List Chunk} {bet : Nat} (shows : Shows heap (pre ++ block :: post))
    (sound : Sound size request) (found : block.fit size = some (left, right))
    (known : bet = heap.lBestBet ∨ bet ∈ (pre ++ block :: post).map Block.base) :
    ∃ placed, (heap.bets bet).searchMajor block.base size request = .ok (some placed) ∧
      Reused heap (pre ++ block :: post) size request placed := by
  have stands : Stands (heap.bets bet) block := (shows.bets known).stands (by simp)
  have finds := searchMajor_finds stands sound fun empty => by
    unfold Block.fit at found
    rw [empty] at found
    unfold FirstFit.fit at found
    split at found
    next room => exact room
    next => cases found
  rw [found] at finds
  obtain ⟨placed, ran, after, same, inserted⟩ := finds
  exact ⟨placed, ran, pre, block, post, left, right, bet, after, rfl, found, known, inserted, Except.ok.inj same⟩

theorem Shows.passes {bet : Nat} (shows : Shows heap (pre ++ block :: post)) (sound : Sound size request)
    (none : block.fit size = none) (enough : ¬ block.pages * lPageSize - block.used < size + minorSize)
    (known : bet = heap.lBestBet ∨ bet ∈ (pre ++ block :: post).map Block.base) :
    (heap.bets bet).searchMajor block.base size request = .ok .none := by
  have stands : Stands (heap.bets bet) block := (shows.bets known).stands (by simp)
  have finds := searchMajor_finds stands sound fun empty => stands.fits.roomy empty (Nat.not_lt.mp enough)
  rw [none] at finds
  exact finds

/-- A turn at a block with a large enough gap is the last. -/
theorem turn_serves {left right : List Chunk} (shows : Shows heap (pre ++ block :: post)) (sound : Sound size request)
    (found : block.fit size = some (left, right)) : ∃ placed,
      mallocLoop size request (fuel + 1) heap block.base started best = .ok placed ∧ Reused heap
        (pre ++ block :: post) size request placed := by
  have fits := shows.fits block (by simp)
  have enough : ¬ block.pages * lPageSize - block.used < size + minorSize := fun short => by
    rw [fits.full short] at found
    cases found
  have known : heap.turnBet block best = heap.lBestBet ∨
    heap.turnBet block best ∈ (pre ++ block :: post).map Block.base :=
    turnBet_known heap best (by simp)
  obtain ⟨placed, ran, reused⟩ := shows.reuses sound found known
  refine ⟨placed, ?_, reused⟩
  rw [turn_eq (shows.stands (by simp)) (skipMajor_look sound enough), ok_bind]
  simp only [ran]
  rfl

/-- A turn at any other block goes on to the next one. -/
theorem turn_next {next : Block} (shows : Shows heap (pre ++ block :: next :: post))
    (sound : Sound size request) (none : block.fit size = none) :
    mallocLoop size request (fuel + 1) heap block.base started best =
      mallocLoop size request fuel (heap.bets (heap.turnBet block best)) next.base started (turnSize block best) := by
  have known : heap.turnBet block best = heap.lBestBet ∨
    heap.turnBet block best ∈ (pre ++ block :: next :: post).map Block.base :=
    turnBet_known heap best (by simp)
  have stands := shows.stands (by simp : block ∈ pre ++ block :: next :: post)
  by_cases short : block.pages * lPageSize - block.used < size + minorSize
  · rw [turn_eq stands (skipMajor_next (shows.bets known) sound short)]
    rfl
  · rw [turn_eq stands (skipMajor_look sound short), ok_bind]
    simp only [shows.passes sound none short known]
    rw [ok_bind]
    simp only [leaveMajor_next (shows.bets known)]
    rfl

/-- The last block of a walk that began at the best bet sends it to the root. -/
theorem turn_again (shows : Shows heap (pre ++ [block])) (sound : Sound size request) (none : block.fit size = none) :
    mallocLoop size request (fuel + 1) heap block.base true best =
      mallocLoop size request fuel (heap.bets (heap.turnBet block best)) heap.lMemRoot false (turnSize block best) := by
  have known : heap.turnBet block best = heap.lBestBet ∨ heap.turnBet block best ∈ (pre ++ [block]).map Block.base :=
    turnBet_known heap best (by simp)
  have stands := shows.stands (by simp : block ∈ pre ++ [block])
  by_cases short : block.pages * lPageSize - block.used < size + minorSize
  · rw [turn_eq stands (skipMajor_again (shows.bets known) sound short)]
    rfl
  · rw [turn_eq stands (skipMajor_look sound short), ok_bind]
    simp only [shows.passes sound none short known]
    rw [ok_bind]
    simp only [leaveMajor_again (shows.bets known)]
    rfl

/-- How a call of `liballoc_malloc` may end: with a chunk, or in the hook it calls
when no gap is large enough. -/
def Serves (initial : Pmm) (roots : Nat → Prop) (root : Nat) (heap : Liballoc) (blocks : List Block)
    (size request : Nat) (result : Checked (Nat × Liballoc)) : Prop :=
  Meets result (Served initial roots root heap blocks size request) fun fault =>
    (∀ block ∈ blocks, block.fit size = none) ∧ liballocAlloc heap.kernel (pagesWanted size) = .error fault

/-- The last block without a large enough gap in the heap. -/
theorem turn_grows (shows : Shows heap (pre ++ [block])) (ground : Ground initial roots root heap.kernel)
    (asks : Asks size) (sound : Sound size request) (none : ∀ block' ∈ pre ++ [block], block'.fit size = none) :
    Serves initial roots root heap (pre ++ [block]) size request
      (mallocLoop size request (fuel + 2) heap block.base false best) := by
  have known : heap.turnBet block best = heap.lBestBet ∨ heap.turnBet block best ∈ (pre ++ [block]).map Block.base :=
    turnBet_known heap best (by simp)
  have shows' := shows.bets known
  have stands := shows.stands (by simp : block ∈ pre ++ [block])
  have ground' : Ground initial roots root (heap.bets (heap.turnBet block best)).kernel := ground
  have grows := (appendNewPage_meets ground' asks shows').mono (fun _ good => good) fun fault failed =>
    And.intro none failed
  have wider (new : Block) : heap.turnBet block best = heap.lBestBet ∨
      heap.turnBet block best ∈ (pre ++ [block] ++ [new]).map Block.base := by
    refine known.imp_right fun among => ?_
    rw [List.map_append]
    exact List.mem_append_left _ among
  by_cases short : block.pages * lPageSize - block.used < size + minorSize
  · rw [turn_eq stands (skipMajor_last shows' sound short), bind_assoc]
    apply grows.bind
    rintro _ - ⟨new, kernel, after, rfl, grown⟩
    replace grown : Grown initial roots root heap.kernel (pre ++ [block]) size new kernel after := grown
    obtain ⟨placed, ran, expanded⟩ := grown.serves shows ground asks sound none (wider new)
    simp only [if_neg (grown.named shows ground asks)]
    rw [ok_bind]
    simp only [ran]
    exact .inr expanded
  · rw [turn_eq stands (skipMajor_look sound short), ok_bind]
    simp only [shows.passes sound (none block (by simp)) short known]
    rw [ok_bind]
    simp only [leaveMajor_last shows']
    rw [bind_assoc]
    apply grows.bind
    rintro _ - ⟨new, kernel, after, rfl, grown⟩
    replace grown : Grown initial roots root heap.kernel (pre ++ [block]) size new kernel after := grown
    rw [ok_bind]
    -- the turn at the new block
    have fresh : Stands (extend (heap.bets (heap.turnBet block best)) kernel after (pre ++ [block]) new) new :=
      grown.stands shows ground asks
    obtain ⟨used, room⟩ := grown.room asks
    have roomy : ¬ new.pages * lPageSize - new.used < size + minorSize := by
      rw [used]
      unfold Block.inner Block.stop at room
      omega
    have late := turnBet_known (extend (heap.bets (heap.turnBet block best)) kernel after (pre ++ [block]) new)
      (turnSize block best)
      (by simp : new ∈ pre ++ [block] ++ [new])
    have known' : turnBet (extend (heap.bets (heap.turnBet block best)) kernel after (pre ++ [block]) new) new
      (turnSize block best) =
        heap.lBestBet ∨ turnBet (extend (heap.bets (heap.turnBet block best)) kernel after (pre ++ [block]) new) new
          (turnSize block best) ∈
          (pre ++ [block] ++ [new]).map Block.base := by
      rcases late with same | among
      · rw [same]
        exact wider new
      · exact .inr among
    obtain ⟨placed, ran, expanded⟩ := grown.serves shows ground asks sound none known'
    have served : (bets (extend (heap.bets (heap.turnBet block best)) kernel after (pre ++ [block]) new)
        (turnBet (extend (heap.bets (heap.turnBet block best)) kernel after (pre ++ [block]) new) new
          (turnSize block best))).searchMajor
          new.base size request = .ok (some placed) := ran
    rw [turn_eq fresh (skipMajor_look sound roomy), ok_bind]
    simp only [served]
    exact .inr expanded

/-- What served a heap with another best bet serves the heap. -/
theorem Serves.bets {bet : Nat} {result : Checked (Nat × Liballoc)}
    (serves : Serves initial roots root (heap.bets bet) blocks size request result)
    (known : bet = heap.lBestBet ∨ bet ∈ blocks.map Block.base) :
    Serves initial roots root heap blocks size request result := by
  refine serves.mono ?_ fun _ failed => failed
  rintro result (⟨pre, block, post, left, right, other, after, rfl, found, among, inserted, rfl⟩ |
    ⟨new, kernel, grown, other, after, none, among, grows, inserted, rfl⟩)
  · refine .inl ⟨pre, block, post, left, right, other, after, rfl, found, ?_, inserted, rfl⟩
    rcases among with rfl | among
    · exact known
    · exact .inr among
  · refine .inr ⟨new, kernel, grown, other, after, none, ?_, grows, inserted, rfl⟩
    rcases among with rfl | among
    · refine known.imp_right fun among => ?_
      rw [List.map_append]
      exact List.mem_append_left _ among
    · exact .inr among

/-- The walk from some block on to the end, with all in front of it too full. -/
theorem walk_serves (ground : Ground initial roots root heap.kernel) (asks : Asks size)
    (sound : Sound size request) (shows : Shows heap (pre ++ block :: post))
    (none : ∀ other ∈ pre, other.fit size = none) (enough : post.length + 2 ≤ fuel) :
    Serves initial roots root heap (pre ++ block :: post) size request
      (mallocLoop size request fuel heap block.base false best) := by
  induction post generalizing pre block heap fuel best with
  | nil =>
    obtain ⟨fuel, rfl⟩ : ∃ rest, fuel = rest + 2 := ⟨fuel - 2, by simp only [List.length_nil] at enough; omega⟩
    cases found : block.fit size with
    | none =>
      refine turn_grows shows ground asks sound fun other among => ?_
      rcases List.mem_append.mp among with front | here
      · exact none other front
      · obtain rfl := List.mem_singleton.mp here
        exact found
    | some gap =>
      obtain ⟨placed, ran, reused⟩ := turn_serves shows sound found
      rw [ran]
      exact .inl reused
  | cons next post ih =>
    obtain ⟨fuel, rfl⟩ : ∃ rest, fuel = rest + 1 := ⟨fuel - 1, by omega⟩
    cases found : block.fit size with
    | none =>
      have known := turnBet_known heap best (by simp : block ∈ pre ++ block :: next :: post)
      have shows' := shows.bets known
      have split : pre ++ block :: next :: post = (pre ++ [block]) ++ next :: post := by simp
      rw [turn_next shows sound found]
      refine Serves.bets ?_ known
      rw [split] at shows' ⊢
      refine ih ground shows' (fun other among => ?_) (by simp only [List.length_cons] at enough; omega)
      rcases List.mem_append.mp among with front | here
      · exact none other front
      · obtain rfl := List.mem_singleton.mp here
        exact found
    | some gap =>
      obtain ⟨placed, ran, reused⟩ := turn_serves shows sound found
      rw [ran]
      exact .inl reused

/-- The walk that began at the best bet and comes by all blocks afterwards. -/
theorem bet_serves (ground : Ground initial roots root heap.kernel) (asks : Asks size) (sound : Sound size request)
    (shows : Shows heap (pre ++ block :: post)) (enough : post.length + (pre ++ block :: post).length + 3 ≤ fuel) :
    Serves initial roots root heap (pre ++ block :: post) size request
      (mallocLoop size request fuel heap block.base true best) := by
  induction post generalizing pre block heap fuel best with
  | nil =>
    obtain ⟨fuel, rfl⟩ : ∃ rest, fuel = rest + 1 := ⟨fuel - 1, by omega⟩
    cases found : block.fit size with
    | none =>
      have known := turnBet_known heap best (by simp : block ∈ pre ++ [block])
      have shows' := shows.bets known
      rw [turn_again shows sound found]
      refine Serves.bets ?_ known
      have head := shows.listed.root
      obtain ⟨first, rest, split⟩ : ∃ first rest, pre ++ [block] = first :: rest := by
        cases pre with
        | nil => exact ⟨block, [], rfl⟩
        | cons first rest => exact ⟨first, rest ++ [block], rfl⟩
      rw [head, split]
      rw [split] at shows' enough
      have ground' : Ground initial roots root (heap.bets (heap.turnBet block best)).kernel := ground
      have whole : Shows (heap.bets (heap.turnBet block best)) ([] ++ first :: rest) := shows'
      exact walk_serves ground' asks sound whole (by simp)
        (by simp only [List.length_cons, List.length_nil] at enough; omega)
    | some gap =>
      obtain ⟨placed, ran, reused⟩ := turn_serves shows sound found
      rw [ran]
      exact .inl reused
  | cons next post ih =>
    obtain ⟨fuel, rfl⟩ : ∃ rest, fuel = rest + 1 := ⟨fuel - 1, by omega⟩
    cases found : block.fit size with
    | none =>
      have known := turnBet_known heap best (by simp : block ∈ pre ++ block :: next :: post)
      have shows' := shows.bets known
      have split : pre ++ block :: next :: post = (pre ++ [block]) ++ next :: post := by simp
      rw [turn_next shows sound found]
      refine Serves.bets ?_ known
      rw [split] at shows' enough ⊢
      exact ih ground shows' (by simp only [List.length_cons] at enough ⊢; omega)
    | some gap =>
      obtain ⟨placed, ran, reused⟩ := turn_serves shows sound found
      rw [ran]
      exact .inl reused

/-- The search begins at the best bet or at the root. -/
theorem mallocSearch_serves (ground : Ground initial roots root heap.kernel) (asks : Asks size)
    (sound : Sound size request) (shows : Shows heap blocks) (some : blocks ≠ []) :
    Serves initial roots root heap blocks size request (heap.mallocSearch size request) := by
  have few := shows.few
  obtain ⟨first, rest, rfl⟩ := List.exists_cons_of_ne_nil some
  have front (best : Nat) : Serves initial roots root heap (first :: rest) size request
      (mallocLoop size request walkFuel heap heap.lMemRoot false best) := by
    have whole : Shows heap ([] ++ first :: rest) := shows
    rw [shows.listed.root]
    refine walk_serves ground asks sound whole (by simp) ?_
    simp only [List.length_cons] at few
    simp only [walkFuel]
    omega
  unfold mallocSearch
  split
  next named =>
    obtain ⟨bet, among, same⟩ := List.mem_map.mp (shows.listed.bet.resolve_left named)
    obtain ⟨pre, post, split⟩ := List.append_of_mem among
    rw [← same, spare_eq (shows.stands among), ok_bind]
    split
    · rw [split] at shows few ⊢
      refine bet_serves ground asks sound shows ?_
      simp only [List.length_append, List.length_cons] at few ⊢
      simp only [walkFuel]
      omega
    · exact front _
  next => exact front _

theorem Shows.empty_of_root (shows : Shows heap blocks) (none : heap.lMemRoot = 0) : blocks = [] := by
  cases blocks with
  | nil => rfl
  | cons block rest =>
    have root := shows.listed.root
    rw [none] at root
    exact absurd root.symm (shows.fits block List.mem_cons_self).not_null

theorem firstPage_meets (ground : Ground initial roots root heap.kernel) (asks : Asks size) :
    Meets (heap.allocateNewPage size)
      (fun result => ∃ new kernel after, result.1 = new.base ∧ { result.2 with lMemRoot := result.1 } =
        extend heap kernel after [] new ∧
        Grown initial roots root heap.kernel [] size new kernel after)
      (fun fault => liballocAlloc heap.kernel (pagesWanted size) = .error fault) := by
  refine (allocateNewPage_meets ground asks).mono ?_ fun _ failed => failed
  rintro ⟨maj, heap'⟩ ⟨kernel, after, ran, headed, rfl⟩
  obtain ⟨ground', supplied⟩ := ground.supplies ran
  have enough := asks.enough.1
  simp only [majorSize, minorSize] at enough
  have header {place : Nat} (low : physical maj ≤ place) (high : place < physical maj + majorSize) :
      heapOwned kernel.vm place = true ∧ heapOwned heap.kernel.vm place = false := by
    have above := supplied.low
    have named : place = physical (place + mmapIoBase) := by
      unfold physical
      omega
    unfold physical at low high
    simp only [majorSize] at high
    rw [named]
    exact ⟨supplied.given _ (by omega) (by omega), supplied.fresh _ (by omega) (by omega)⟩
  have quiet (place : Nat) (foreign : heapOwned kernel.vm place = false) : after place = kernel.vm.mem place := by
    apply headed.bytes
    refine Decidable.byContradiction fun inside => ?_
    rw [(header (Nat.le_of_not_lt fun less => inside (.inl less))
      (Nat.lt_of_not_le fun less => inside (.inr less))).1] at foreign
    cases foreign
  refine ⟨⟨maj, pagesWanted size, []⟩, kernel, after, rfl, rfl, ran, rfl,
    ⟨headed.toOpens, headed.prev, headed.next, by simp, ?_⟩,
    ground'.write quiet, quiet⟩
  intro place owned _
  rw [headed.bytes]
  · exact supplied.bytes place owned
  · refine Decidable.byContradiction fun inside => ?_
    rw [(header (Nat.le_of_not_lt fun less => inside (.inl less))
      (Nat.lt_of_not_le fun less => inside (.inr less))).2] at owned
    cases owned

theorem mallocSized_serves (ground : Ground initial roots root heap.kernel) (asks : Asks size) (sound : Sound size request)
    (shows : Shows heap blocks) : Serves initial roots root heap blocks size request (heap.mallocSized size request) := by
  unfold mallocSized
  split
  next none =>
    obtain rfl := shows.empty_of_root none
    have first := (firstPage_meets ground asks).mono (fun _ good => good) fun fault failed =>
      (⟨by simp, failed⟩ : (∀ block ∈ [], Block.fit block size = Option.none) ∧ liballocAlloc heap.kernel (pagesWanted size) = .error fault)
    apply first.bind
    rintro ⟨maj, heap'⟩ - ⟨new, kernel, after, rfl, same, grown⟩
    simp only at same ⊢
    rw [same, if_neg (grown.named shows ground asks)]
    have shows' : Shows (extend heap kernel after [] new) [new] := grown.showing shows ground asks
    have room : new.fit size = some ([], []) := by
      unfold Block.fit
      rw [grown.extended.empty]
      exact if_pos (grown.room asks).2
    refine (mallocSearch_serves grown.ground asks sound shows' (by simp)).mono ?_ fun fault failed => ?_
    · rintro result (⟨pre, block, post, left, right, bet, filled, split, found, known, inserted, rfl⟩ | ⟨_, _, _, _, _, none, -⟩)
      · obtain ⟨rfl, rfl, rfl⟩ : pre = [] ∧ block = new ∧ post = [] := by
          cases pre with
          | nil => simpa [eq_comm] using split
          | cons other rest => simp at split
        rw [room] at found
        obtain ⟨rfl, rfl⟩ := Prod.mk.inj (Option.some.inj found)
        exact .inr ⟨block, kernel, after, bet, filled, by simp, known, grown, inserted, rfl⟩
      · rw [none new (by simp)] at room
        cases room
    · rw [failed.1 new (by simp)] at room
      cases room
  next named => exact mallocSearch_serves ground asks sound shows fun none => named (by rw [shows.listed.root, none]; rfl)

/-- What a client may ask for. -/
def Asked (request : Nat) : Prop := Asks (request + (alignment + alignInfo))

theorem Asked.sound (asked : Asked request) : Sound (request + (alignment + alignInfo)) request := by
  have word := asked.word
  simp only [majorSize, minorSize, alignment, alignInfo] at word
  refine ⟨Nat.le_refl _, ?_⟩
  simp only [minorSize, alignment, alignInfo]
  omega

/-- Every request that can be met is, from the first gap a walk comes by, or from a new
block; it fails only as the hook does. -/
theorem malloc_serves (ground : Ground initial roots root heap.kernel) (asked : Asked request)
    (shows : Shows heap blocks) :
    Serves initial roots root heap blocks (request + (alignment + alignInfo)) request (heap.malloc request) := by
  have sound := asked.sound
  have padded : paddedSize request = request + (alignment + alignInfo) := wrap_of_lt (by have := sound.small; omega)
  have some : request + (alignment + alignInfo) ≠ 0 := by simp [alignment]
  unfold malloc
  rw [padded, if_neg some]
  exact mallocSized_serves ground asked sound shows

end Navy.Liballoc
