import Navy.Proofs.LiballocMalloc

/-! `liballoc_free`: the chunk leaves its block, and the block goes with its last chunk. -/

namespace Navy.Liballoc
open FirstFit LinkedList Outcome Paging

variable {mem after : Bytes} {block : Block} {blocks pre post : List Block} {left right : List Chunk}
  {chunk gone : Chunk}
  {heap : Liballoc} {initial : Pmm} {roots : Nat → Prop} {root : Nat}

def Block.remove (block : Block) (left right : List Chunk) : Block := { block with chunks := left ++ right }

/-- A member of another chunk once the one between some others is gone: the neighbours
turn to each other. -/
def Chunk.closed (chunk : Chunk) (mem : Bytes) (left right : List Chunk) (field : MinorField) : Nat :=
  if field = .next ∧ left.getLast? = some chunk then (right.map Chunk.place).headD 0
  else if field = .prev ∧ right.head? = some chunk then (left.map Chunk.place).getLastD 0
  else member mem chunk.place field

/-- A chunk has left its block, and nothing else has changed. -/
structure Removed (mem after : Bytes) (block : Block) (left : List Chunk) (gone : Chunk)
    (right : List Chunk) : Prop where
  dead : member after gone.place MinorField.magic = liballocDead
  others : ∀ chunk ∈ left ++ right, ∀ field : MinorField, member after chunk.place field =
    chunk.closed mem left right field
  majors : ∀ field : MajorField, member after block.base field =
    if field = .first then ((left ++ right).map Chunk.place).headD 0
    else if field = .usage then block.used - (gone.size + minorSize) else member mem block.base field
  bytes : ∀ address, mmapIoBase ≤ address → ¬ block.Header address → after (physical address) = mem (physical address)

section Leaving

variable (split : block.chunks = left ++ gone :: right)
include split

theorem Block.remove_old (among : chunk ∈ left ++ right) : chunk ∈ block.chunks := by
  simp only [split, List.mem_append, List.mem_cons] at among ⊢
  tauto

theorem Block.remove_used : (block.remove left right).used = block.used - (gone.size + minorSize) ∧
    gone.size + minorSize ≤ block.used := by
  unfold Block.used Block.remove
  rw [split, taken_append, taken_append, taken_cons]
  unfold Chunk.stop
  omega

theorem Block.remove_lent : block.lent = (block.remove left right).lent + gone.size := by
  unfold Block.lent Block.remove
  rw [split]
  simp only [List.map_append, List.map_cons, List.sum_append, List.sum_cons]
  omega

theorem Block.Fits.remove (fits : block.Fits) : (block.remove left right).Fits := by
  have packed := fits.packed
  rw [split] at packed
  exact ⟨fits.low, fits.high, fits.pages, packed.remove, fun chunk among =>
    fits.room chunk (Block.remove_old split among)⟩

theorem Removed.shownBlock (removed : Removed mem after block left gone right) (fits : block.Fits)
    (shown : block.Shown mem) : (block.remove left right).Shown after := by
  have unique := fits.unique
  rw [split, List.map_append, List.map_cons] at unique
  refine ⟨(removed.majors .pages).trans shown.pages, (removed.majors .size).trans shown.size, ?_,
    removed.majors .first, ?_, ?_⟩
  · apply Eq.trans (removed.majors .usage)
    exact (Block.remove_used split).1.symm
  · have links := shown.links
    rw [split, List.map_append, List.map_cons] at links
    have names : (block.remove left right).chunks.map Chunk.place = left.map Chunk.place ++ right.map Chunk.place := by
      simp [Block.remove]
    rw [names]
    refine links.remove unique ?_ ?_ ?_ ?_
    · intro place found
      rw [List.getLast?_map] at found
      obtain ⟨chunk, last, rfl⟩ := Option.map_eq_some_iff.mp found
      apply Eq.trans (removed.others chunk (by simp [List.mem_of_getLast? last]) .next)
      exact if_pos ⟨rfl, last⟩
    · intro place found
      rw [List.head?_map] at found
      obtain ⟨chunk, first, rfl⟩ := Option.map_eq_some_iff.mp found
      apply Eq.trans (removed.others chunk (by simp [List.mem_of_head? first]) .prev)
      unfold Chunk.closed
      rw [if_neg (by simp)]
      exact if_pos ⟨rfl, first⟩
    · intro place among apart
      rw [← List.map_append] at among
      obtain ⟨chunk, member, rfl⟩ := List.mem_map.mp among
      apply Eq.trans (removed.others chunk member .next)
      unfold Chunk.closed
      rw [if_neg, if_neg (by simp)]
      rintro ⟨-, last⟩
      exact apart (by simp [List.getLast?_map, last])
    · intro place among apart
      rw [← List.map_append] at among
      obtain ⟨chunk, member, rfl⟩ := List.mem_map.mp among
      apply Eq.trans (removed.others chunk member .prev)
      unfold Chunk.closed
      rw [if_neg (by simp), if_neg]
      rintro ⟨-, first⟩
      exact apart (by simp [List.head?_map, first])
  · intro chunk among
    have before := shown.chunks chunk (Block.remove_old split among)
    have slack := fits.slack_place (Block.remove_old split among)
    have inside := fits.chunk_bounds (Block.remove_old split among)
    have low := fits.low
    refine ⟨(removed.others chunk among .block).trans before.block,
      (removed.others chunk among .magic).trans before.magic,
      (removed.others chunk among .size).trans before.size,
      (removed.others chunk among .reqSize).trans before.request, ?_⟩
    rw [removed.bytes _ (by omega) (fits.body (Block.remove_old split among) slack.1 slack.2)]
    exact before.slack

theorem Removed.edited (removed : Removed mem after block left gone right) (fits : block.Fits)
    (shown : block.Shown mem) : Edited mem after block (block.remove left right) := by
  refine ⟨rfl, rfl, fits.remove split, removed.shownBlock split fits shown, removed.majors .prev,
    removed.majors .next, fun address low outside => ?_⟩
  apply removed.bytes address low
  rintro (⟨first, last⟩ | ⟨chunk, among, first, last⟩)
  · have pages := fits.pages
    unfold Block.inner at last
    unfold Block.stop at outside
    simp only [majorSize, lPageSize] at last outside pages
    omega
  · have bounds := fits.chunk_bounds among
    simp only [minorSize] at last
    omega

end Leaving

/-- A link of a neighbour is set, if there is one. -/
def relink (mem : Bytes) (neighbour : Option Chunk) (field : MinorField) (value : Nat) : Bytes :=
  match neighbour with
  | none => mem
  | some chunk => setMember mem chunk.place field value

section Relinking

variable (fits : block.Fits) {neighbour : Option Chunk}
  (inside : ∀ chunk, neighbour = some chunk → chunk ∈ block.chunks)
  (field : MinorField) {value : Nat}
include fits inside

theorem relink_ran :
    (if (neighbour.map Chunk.place).getD 0 ≠ 0 then heap.store ((neighbour.map Chunk.place).getD 0) field value
      else .ok heap) =
    .ok (heap.withMem (relink heap.kernel.vm.mem neighbour field value)) := by
  cases neighbour with
  | none => rfl
  | some chunk =>
    have direct := fits.direct_chunk (inside chunk rfl)
    have named : chunk.place ≠ 0 := by
      have low := direct.1
      have io : 0 < mmapIoBase := by decide
      omega
    simp only [Option.map_some, Option.getD_some]
    rw [if_pos named, store_minor direct]
    rfl

theorem relink_chunk (among : chunk ∈ block.chunks) (field' : MinorField) :
    member (relink mem neighbour field value) chunk.place field' =
    if neighbour = some chunk ∧ field' = field then value % 256 ^ field.field.count
      else member mem chunk.place field' := by
  cases neighbour with
  | none => simp [relink]
  | some other =>
    apply Eq.trans (fits.chunk_chunk (inside other rfl) among field field')
    simp only [Option.some.injEq, eq_comm]

theorem relink_major (field' : MajorField) : member (relink mem neighbour field value) block.base field' =
    member mem block.base field' := by
  cases neighbour with
  | none => rfl
  | some other => exact fits.chunk_major (inside other rfl) field field'

theorem relink_byte {address : Nat} (above : mmapIoBase ≤ address) (outside : ¬ block.Header address) :
    relink mem neighbour field value (physical address) = mem (physical address) := by
  cases neighbour with
  | none => rfl
  | some other => exact fits.chunk_byte (inside other rfl) field above outside

end Relinking

theorem head_place : (right.map Chunk.place).headD 0 = (right.head?.map Chunk.place).getD 0 := by
  rw [List.headD_eq_head?_getD, List.head?_map]

theorem last_place : (left.map Chunk.place).getLastD 0 = (left.getLast?.map Chunk.place).getD 0 := by
  rw [List.getLastD_eq_getLast?, List.getLast?_map]

/-- A neighbour's place, or none, is an address. -/
theorem Block.Fits.neighbour_small (fits : block.Fits) {neighbour : Option Chunk}
    (inside : ∀ chunk, neighbour = some chunk → chunk ∈ block.chunks) :
    (neighbour.map Chunk.place).getD 0 < 2 ^ 64 := by
  cases neighbour with
  | none => exact Nat.two_pow_pos 64
  | some chunk =>
    have direct := (fits.direct_chunk (inside chunk rfl)).2
    simp only [Option.map_some, Option.getD_some]
    omega

/-- What `liballoc_free` does to the block of a chunk. -/
def strike (mem : Bytes) (block : Block) (left : List Chunk) (gone : Chunk) (right : List Chunk) : Bytes :=
  let mem := setMember mem block.base MajorField.usage (block.used - (gone.size + minorSize))
  let mem := setMember mem gone.place MinorField.magic liballocDead
  let mem := relink mem right.head? .prev ((left.getLast?.map Chunk.place).getD 0)
  let mem := relink mem left.getLast? .next ((right.head?.map Chunk.place).getD 0)
  if left = [] then setMember mem block.base MajorField.first ((right.head?.map Chunk.place).getD 0) else mem

section Striking

variable (split : block.chunks = left ++ gone :: right) (fits : block.Fits) (shown : block.Shown mem)
include split fits shown

theorem strike_removed : Removed mem (strike mem block left gone right) block left gone right := by
  have here : gone ∈ block.chunks := by simp [split]
  have first : ∀ chunk, right.head? = some chunk → chunk ∈ block.chunks := fun chunk found => by
    simp [split, List.mem_of_head? found]
  have last : ∀ chunk, left.getLast? = some chunk → chunk ∈ block.chunks := fun chunk found => by
    simp [split, List.mem_of_getLast? found]
  have used := (Block.remove_used split).2
  have small := fits.used_small.2
  -- the last store is one to the block
  have end_chunk {mem : Bytes} {chunk : Chunk} {value : Nat} (among : chunk ∈ block.chunks) (field : MinorField) :
      member (if left = [] then setMember mem block.base MajorField.first value else mem) chunk.place field =
        member mem chunk.place field := by
    split
    · exact fits.major_chunk among .first field
    · rfl
  have end_major {mem : Bytes} {value : Nat} (field : MajorField) :
      member (if left = [] then setMember mem block.base MajorField.first value else mem) block.base field =
        if left = [] ∧ field = .first then value % 256 ^ (MajorField.field .first).count
          else member mem block.base field := by
    by_cases empty : left = []
    · rw [if_pos empty, fits.major_major]
      simp only [empty, true_and]
    · rw [if_neg empty, if_neg fun both => empty both.1]
  have next_kept : (right.head?.map Chunk.place).getD 0 % 256 ^ (MinorField.field .next).count =
    (right.head?.map Chunk.place).getD 0 :=
    Nat.mod_eq_of_lt (fits.neighbour_small first)
  have prev_kept : (left.getLast?.map Chunk.place).getD 0 % 256 ^ (MinorField.field .prev).count =
    (left.getLast?.map Chunk.place).getD 0 :=
    Nat.mod_eq_of_lt (fits.neighbour_small last)
  have first_kept : (right.head?.map Chunk.place).getD 0 % 256 ^ (MajorField.field .first).count =
    (right.head?.map Chunk.place).getD 0 :=
    Nat.mod_eq_of_lt (fits.neighbour_small first)
  have usage_kept : (block.used - (gone.size + minorSize)) % 256 ^ (MajorField.field .usage).count =
    block.used - (gone.size + minorSize) := by
    apply Nat.mod_eq_of_lt
    simp only [MajorField.field]
    omega
  refine ⟨?_, ?_, ?_, ?_⟩
  · unfold strike
    rw [end_chunk here, relink_chunk fits last .next here, relink_chunk fits first .prev here,
      fits.chunk_chunk here here]
    simp only [reduceCtorEq, and_false, if_false, and_self, if_true]
    decide
  · intro chunk among field
    have inside := Block.remove_old split among
    have different : chunk ≠ gone := by
      rintro rfl
      have unique := fits.unique
      rw [split, List.map_append, List.map_cons] at unique
      have rest := List.nodup_middle.mp unique
      rw [List.nodup_cons, ← List.map_append] at rest
      exact rest.1 (List.mem_map_of_mem among)
    unfold strike Chunk.closed
    rw [end_chunk inside, relink_chunk fits last .next inside, relink_chunk fits first .prev inside,
      fits.chunk_chunk here inside, fits.major_chunk inside, next_kept, prev_kept, head_place, last_place]
    simp only [different, false_and, if_false, and_comm]
  · intro field
    unfold strike
    rw [end_major, relink_major fits last, relink_major fits first, fits.chunk_major here, fits.major_major,
      first_kept, usage_kept, head_place]
    by_cases head : field = .first
    · subst head
      cases left with
      | nil => simp
      | cons chunk rest =>
        have old := shown.first
        rw [split] at old
        simpa using old
    · simp only [head, and_false, if_false]
  · intro address above outside
    have stores : setMember (setMember mem block.base MajorField.usage
      (block.used - (gone.size + minorSize))) gone.place MinorField.magic
        liballocDead (physical address) = mem (physical address) := by
      rw [fits.chunk_byte here .magic above outside, fits.major_byte .usage above outside]
    unfold strike
    split
    · rw [fits.major_byte .first above outside, relink_byte fits last .next above outside,
        relink_byte fits first .prev above outside]
      exact stores
    · rw [relink_byte fits last .next above outside, relink_byte fits first .prev above outside]
      exact stores

end Striking

/-- The heap without a chunk, before its block is looked at. -/
def struck (heap : Liballoc) (block : Block) (left : List Chunk) (gone : Chunk) (right : List Chunk) : Liballoc :=
  { heap.withMem (strike heap.kernel.vm.mem block left gone right) with lInuse := wrapSub heap.lInuse gone.size }

theorem unlinkMinor_ran (fits : block.Fits) (split : block.chunks = left ++ gone :: right)
    (next : member heap.kernel.vm.mem gone.place MinorField.next = (right.head?.map Chunk.place).getD 0)
    (prev : member heap.kernel.vm.mem gone.place MinorField.prev = (left.getLast?.map Chunk.place).getD 0) :
    heap.unlinkMinor block.base gone.place = .ok (heap.withMem
      (let mem := relink heap.kernel.vm.mem right.head? .prev ((left.getLast?.map Chunk.place).getD 0)
      let mem := relink mem left.getLast? .next ((right.head?.map Chunk.place).getD 0)
      if left = [] then setMember mem block.base MajorField.first ((right.head?.map Chunk.place).getD 0)
        else mem)) := by
  have here : gone ∈ block.chunks := by simp [split]
  have direct := fits.direct_chunk here
  have first : ∀ chunk, right.head? = some chunk → chunk ∈ block.chunks := fun chunk found => by
    simp [split, List.mem_of_head? found]
  have last : ∀ chunk, left.getLast? = some chunk → chunk ∈ block.chunks := fun chunk found => by
    simp [split, List.mem_of_getLast? found]
  unfold unlinkMinor
  rw [load_minor_bind direct, load_minor_bind direct, next, prev, relink_ran fits first .prev, ok_bind,
    relink_ran fits last .next, ok_bind]
  simp only [withMem_mem, withMem_withMem]
  rcases List.eq_nil_or_concat left with empty | ⟨rest, chunk, rfl⟩
  · subst empty
    simp only [List.getLast?_nil, Option.map_none, Option.getD_none, if_true]
    rw [store_major fits.direct_base]
    rfl
  · have named : ¬ chunk.place = 0 := by
      have low := (fits.direct_chunk (last chunk (by simp))).1
      have io : 0 < mmapIoBase := by decide
      omega
    simp [named]
    rfl

theorem freeMinor_eq (stands : Stands heap block) (split : block.chunks = left ++ gone :: right) :
    heap.freeMinor gone.place =
    if left ++ right = [] then (struck heap block left gone right).dropMajor block.base
    else (struck heap block left gone right).betterBet block.base := by
  have here : gone ∈ block.chunks := by simp [split]
  obtain ⟨fits, shown⟩ := stands
  have direct := fits.direct_chunk here
  have dbase := fits.direct_base
  have own := shown.chunks gone here
  have used := (Block.remove_used split).2
  have small := fits.used_small.2
  have removed := strike_removed split fits shown
  have links := shown.links (left.map Chunk.place) gone.place (right.map Chunk.place) (by simp [split])
  have books : wordSub block.used (gone.size + minorSize) = block.used - (gone.size + minorSize) := by
    unfold wordSub
    omega
  unfold freeMinor
  rw [load_minor_bind direct, load_minor_bind direct, own.block, own.size, load_major_bind dbase, shown.usage,
    store_major_bind dbase, store_minor_bind direct, books]
  have header (field : MinorField) (other : field ≠ .magic) :
      member (setMember (setMember heap.kernel.vm.mem block.base MajorField.usage
        (block.used - (gone.size + minorSize))) gone.place
        MinorField.magic liballocDead) gone.place field = member heap.kernel.vm.mem gone.place field := by
    rw [fits.chunk_chunk here here, if_neg fun both => other both.2, fits.major_chunk here]
  have unlinked : ({ heap with lInuse := wrapSub heap.lInuse gone.size }.withMem
      (setMember (setMember heap.kernel.vm.mem block.base MajorField.usage
        (block.used - (gone.size + minorSize))) gone.place
        MinorField.magic liballocDead)).unlinkMinor block.base gone.place = .ok (struck heap block left gone right) :=
    unlinkMinor_ran fits split ((header .next nofun).trans (links.2.trans head_place))
      ((header .prev nofun).trans (links.1.trans last_place))
  have first : member (struck heap block left gone right).kernel.vm.mem block.base MajorField.first =
    ((left ++ right).map Chunk.place).headD 0 :=
    removed.majors .first
  simp only [withMem_mem, withMem_withMem] at unlinked ⊢
  rw [unlinked, ok_bind, load_major_bind dbase, first]
  cases rest : left ++ right with
  | nil => rfl
  | cons chunk more =>
    have among : chunk ∈ left ++ right := by simp [rest]
    have named : ¬ chunk.place = 0 := by
      have low := (fits.direct_chunk (Block.remove_old split among)).1
      have io : 0 < mmapIoBase := by decide
      omega
    simp only [List.map_cons, List.headD_cons, if_neg named, reduceCtorEq, if_false]

/-- The byte in front of a pointer tells how far it was moved. -/
theorem unalign_eq {ptr moved : Nat} (low : mmapIoBase + 16 ≤ ptr) (high : ptr < 2 ^ 64)
    (byte : heap.kernel.vm.mem (physical (ptr - alignInfo)) = BitVec.ofNat 8 moved)
    (short : moved < alignment + alignInfo) : heap.unalign ptr = .ok (ptr - moved) := by
  simp only [alignment, alignInfo] at byte short
  have io : 32 ≤ mmapIoBase := by decide
  have front : wrapSub ptr alignInfo = ptr - 16 := by
    unfold wrapSub wrap
    simp only [alignInfo]
    omega
  have back : wrapSub ptr moved = ptr - moved := by
    unfold wrapSub wrap
    omega
  have loaded : heap.load (ptr - 16) alignByte = .ok moved := by
    have whole : wrap (ptr - 16 + alignByte.offset) = ptr - 16 := wrap_of_lt (by simp only [alignByte]; omega)
    have seen : member heap.kernel.vm.mem (ptr - 16) alignByte = moved := by
      unfold member
      rw [whole, ← wrap_of_lt (by omega : ptr - 16 < 2 ^ 64), ioToPhys_eq (by omega) (by omega)]
      simp only [alignByte, Bytes.read, byte, BitVec.toNat_ofNat]
      omega
    unfold load
    rw [check_true _ (by rw [whole]; omega), seen]
    rfl
  have signed : ((BitVec.ofNat 8 moved).signExtend 64).toNat = moved := by
    have positive : (BitVec.ofNat 8 moved).msb = false := by
      rw [BitVec.msb_eq_false_iff_two_mul_lt, BitVec.toNat_ofNat]
      omega
    rw [BitVec.signExtend_eq_setWidth_of_msb_false positive, BitVec.toNat_setWidth, BitVec.toNat_ofNat]
    omega
  unfold unalign
  rw [front, loaded, ok_bind]
  simp only [signed, alignment, alignInfo]
  rw [if_pos short, back]
  rfl

theorem unalign_chunk (stands : Stands heap block) (here : chunk ∈ block.chunks) :
    heap.unalign chunk.pointer = .ok (chunk.place + minorSize) := by
  have bounds := chunk.pointer_bounds
  have direct := stands.fits.direct_chunk here
  have inside := stands.fits.chunk_bounds here
  have room := Chunk.pointer_room (stands.fits.room chunk here)
  have low := stands.fits.low
  have high := stands.fits.high
  have moved := (stands.shown.chunks chunk here).slack
  have header : minorSize = 40 := rfl
  have above := stands.fits.room chunk here
  have stop : chunk.stop = chunk.place + minorSize + chunk.size := rfl
  simp only [alignment, alignInfo] at above
  rw [unalign_eq (by omega) (by omega) moved (by simp only [alignment, alignInfo]; omega)]
  congr 1
  omega

/-- A pointer that was handed out leads to its header. -/
theorem free_eq (stands : Stands heap block) (here : chunk ∈ block.chunks) :
    heap.free chunk.pointer = heap.freeMinor chunk.place := by
  have bounds := chunk.pointer_bounds
  have direct := stands.fits.direct_chunk here
  have magic := (stands.shown.chunks chunk here).magic
  have back : wrapSub (chunk.place + minorSize) minorSize = chunk.place := by
    have high := direct.2
    unfold wrapSub wrap
    simp only [minorSize]
    omega
  unfold free
  rw [if_neg (by omega), unalign_chunk stands here, ok_bind]
  simp only [back]
  rw [load_minor_bind direct, magic, if_neg (not_not_intro rfl)]

theorem Shows.struck (shows : Shows heap (pre ++ block :: post)) (split : block.chunks = left ++ gone :: right) :
    Shows (struck heap block left gone right) (pre ++ block.remove left right :: post) := by
  have stands := shows.stands (by simp : block ∈ pre ++ block :: post)
  have removed := strike_removed split stands.fits stands.shown
  have replaced := shows.replace (removed.edited split stands.fits stands.shown)
  have sum : wrapSub heap.lInuse gone.size = wrap (lent (pre ++ block.remove left right :: post)) := by
    rw [shows.listed.inuse, wrapSub_wrap]
    simp only [lent, List.map_append, List.map_cons, List.sum_append, List.sum_cons, Block.remove_lent split]
    have small := stands.fits.size_small (by simp [split] : gone ∈ block.chunks)
    unfold wrapSub wrap
    omega
  unfold Liballoc.struck
  rw [sum]
  exact replaced

theorem betterBet_ran (shows : Shows heap blocks) (among : block ∈ blocks) :
    ∃ bet, heap.betterBet block.base = .ok (heap.bets bet) ∧ (bet = heap.lBestBet ∨ bet ∈ blocks.map Block.base) := by
  unfold betterBet
  split
  next named =>
    obtain ⟨other, inside, same⟩ := List.mem_map.mp (shows.listed.bet.resolve_left named)
    rw [← same, spare_eq (shows.stands inside), ok_bind, spare_eq (shows.stands among), ok_bind]
    split
    · exact ⟨block.base, rfl, .inr (List.mem_map_of_mem among)⟩
    · exact ⟨heap.lBestBet, rfl, .inl same.symm⟩
  next => exact ⟨heap.lBestBet, rfl, .inl rfl⟩

theorem Shows.family (shows : Shows heap blocks) : Family fun pointer => pointer ∈ blocks.map Block.base := by
  constructor
  · intro pointer among
    obtain ⟨block, member, rfl⟩ := List.mem_map.mp among
    exact (shows.fits block member).direct_base
  · intro first second one two
    obtain ⟨block, member, rfl⟩ := List.mem_map.mp one
    obtain ⟨other, member', rfl⟩ := List.mem_map.mp two
    by_cases same : block = other
    · exact .inl (congrArg Block.base same)
    · have apart : block.Apart other := shows.apart.forall member member' same
      have pages := (shows.fits block member).pages
      have pages' := (shows.fits other member').pages
      refine .inr ?_
      unfold Block.Apart Block.stop at apart
      unfold Clear
      simp only [lPageSize] at apart pages pages'
      omega

theorem Shows.named (shows : Shows heap blocks) {other : Block} (one : block ∈ blocks) (two : other ∈ blocks) :
    block.base = other.base ↔ block = other :=
  ⟨fun same => List.inj_on_of_nodup_map shows.distinct one two same, congrArg Block.base⟩

/-- What lies in a block behind its links is in no links. -/
theorem Shows.behind_links (shows : Shows heap blocks) (among : block ∈ blocks) {place : Nat}
    (low : physical block.base + 16 ≤ place) (high : place < physical block.base + block.pages * lPageSize) :
    ∀ other ∈ blocks, place < physical other.base ∨ physical other.base + 16 ≤ place := by
  intro other inside
  by_cases same : other = block
  · subst same
    exact .inr low
  · have clear : other.Apart block := shows.apart.forall inside among same
    have bottom := (shows.fits other inside).low
    have bottom' := (shows.fits block among).low
    have pages := (shows.fits other inside).pages
    unfold Block.Apart Block.stop at clear
    unfold physical at *
    simp only [lPageSize] at *
    omega

/-- A link of a neighbouring block is set, if there is one. -/
def relinkMajor (mem : Bytes) (neighbour : Option Block) (field : MajorField) (value : Nat) : Bytes :=
  match neighbour with
  | none => mem
  | some block => setMember mem block.base field value

section Relinking

variable (shows : Shows heap blocks) {neighbour : Option Block}
  (inside : ∀ block, neighbour = some block → block ∈ blocks)
  (field : MajorField) {value : Nat}
include shows inside

theorem relinkMajor_ran {current : Liballoc} :
    (if (neighbour.map Block.base).getD 0 ≠ 0 then current.store ((neighbour.map Block.base).getD 0) field value
      else .ok current) =
      .ok (current.withMem (relinkMajor current.kernel.vm.mem neighbour field value)) := by
  cases neighbour with
  | none => rfl
  | some block =>
    have fits := shows.fits block (inside block rfl)
    simp only [Option.map_some, Option.getD_some]
    rw [if_pos fits.not_null, store_major fits.direct_base]
    rfl

theorem relinkMajor_member (among : block ∈ blocks) (field' : MajorField) :
    member (relinkMajor mem neighbour field value) block.base field' =
    if neighbour = some block ∧ field' = field then value % 256 ^ field.field.count
      else member mem block.base field' := by
  cases neighbour with
  | none => simp [relinkMajor]
  | some other =>
    apply Eq.trans (shows.family.major (List.mem_map_of_mem (inside other rfl))
      (List.mem_map_of_mem among) field field')
    simp only [shows.named among (inside other rfl), Option.some.injEq, eq_comm]

theorem relinkMajor_byte (linked : field = .prev ∨ field = .next) {place : Nat}
    (outside : ∀ block ∈ blocks, place < physical block.base ∨ physical block.base + 16 ≤ place) :
    relinkMajor mem neighbour field value place = mem place := by
  cases neighbour with
  | none => rfl
  | some other =>
    have range := field.inside
    have apart := outside other (inside other rfl)
    apply setMember_apart (shows.fits other (inside other rfl)).direct_base range.1 range.2
    rcases linked with rfl | rfl
    all_goals
      simp only [MajorField.field]
      omega

end Relinking

/-- The memory once a block has left the list. -/
def unhang (mem : Bytes) (pre post : List Block) : Bytes :=
  relinkMajor (relinkMajor mem pre.getLast? .next ((post.head?.map Block.base).getD 0)) post.head? .prev
    ((pre.getLast?.map Block.base).getD 0)

/-- The heap once a block has left it. -/
def dropped (heap : Liballoc) (pre : List Block) (gone : Block) (post : List Block) : Liballoc :=
  { heap.withMem (unhang heap.kernel.vm.mem pre post) with
    lMemRoot := ((pre ++ post).map Block.base).headD 0
    lBestBet := if heap.lBestBet = gone.base then 0 else heap.lBestBet
    lAllocated := wrapSub heap.lAllocated (gone.pages * lPageSize) }

theorem head_base (post : List Block) : (post.map Block.base).headD 0 = (post.head?.map Block.base).getD 0 := by
  rw [List.headD_eq_head?_getD, List.head?_map]

theorem last_base (pre : List Block) : (pre.map Block.base).getLastD 0 = (pre.getLast?.map Block.base).getD 0 := by
  rw [List.getLastD_eq_getLast?, List.getLast?_map]

section Dropping

variable (shows : Shows heap (pre ++ block :: post))
include shows

theorem Shows.unhang_member {other : Block} (among : other ∈ pre ++ block :: post) (field : MajorField) :
    member (unhang mem pre post) other.base field =
      if post.head? = some other ∧ field = .prev then (pre.getLast?.map Block.base).getD 0
      else if pre.getLast? = some other ∧ field = .next then (post.head?.map Block.base).getD 0
      else member mem other.base field := by
  have first : ∀ other, post.head? = some other → other ∈ pre ++ block :: post := fun other found => by
    simp [List.mem_of_head? found]
  have last : ∀ other, pre.getLast? = some other → other ∈ pre ++ block :: post := fun other found => by
    simp [List.mem_of_getLast? found]
  have small {neighbour : Option Block} (inside : ∀ other, neighbour = some other → other ∈ pre ++ block :: post) :
      (neighbour.map Block.base).getD 0 < 2 ^ 64 := by
    cases neighbour with
    | none => exact Nat.two_pow_pos 64
    | some other =>
      have direct := (shows.fits other (inside other rfl)).direct_base.2
      simp only [Option.map_some, Option.getD_some]
      omega
  have prev_kept : (pre.getLast?.map Block.base).getD 0 % 256 ^ (MajorField.field .prev).count =
    (pre.getLast?.map Block.base).getD 0 :=
    Nat.mod_eq_of_lt (small last)
  have next_kept : (post.head?.map Block.base).getD 0 % 256 ^ (MajorField.field .next).count =
    (post.head?.map Block.base).getD 0 :=
    Nat.mod_eq_of_lt (small first)
  unfold unhang
  rw [relinkMajor_member shows first .prev among, relinkMajor_member shows last .next among, prev_kept, next_kept]

theorem Shows.unhang_other (field : MajorField) (back : field ≠ .prev) (forth : field ≠ .next) {other : Block}
    (among : other ∈ pre ++ block :: post) : member (unhang mem pre post) other.base field =
      member mem other.base field := by
  rw [shows.unhang_member among, if_neg fun both => back both.2, if_neg fun both => forth both.2]

theorem dropMajor_ran : heap.dropMajor block.base = (dropped heap pre block post).systemFree block.base block.pages := by
  have here : block ∈ pre ++ block :: post := by simp
  have first : ∀ other, post.head? = some other → other ∈ pre ++ block :: post := fun other found => by
    simp [List.mem_of_head? found]
  have last : ∀ other, pre.getLast? = some other → other ∈ pre ++ block :: post := fun other found => by
    simp [List.mem_of_getLast? found]
  have fits := shows.fits block here
  have direct := fits.direct_base
  have shown := shows.shown block here
  have next := shows.links_at.2.trans (head_base post)
  have prev := shows.links_at.1.trans (last_base pre)
  have rooted : (if heap.lMemRoot = block.base then { heap with lMemRoot := (post.head?.map Block.base).getD 0 } else heap) =
      { heap with lMemRoot := ((pre ++ post).map Block.base).headD 0 } := by
    have head := shows.listed.root
    cases pre with
    | nil =>
      have same : heap.lMemRoot = block.base := head
      rw [if_pos same, List.nil_append, head_base post]
    | cons first rest =>
      have other : ¬ heap.lMemRoot = block.base := by
        intro same
        have equal := (shows.named (by simp) here).mp (head.symm.trans same)
        have unique := shows.distinct
        rw [equal] at unique
        simp at unique
      rw [if_neg other]
      obtain ⟨kernel, lMemRoot⟩ := heap
      simp only at head
      subst head
      rfl
  have betted : (if heap.lBestBet = block.base then { heap with lMemRoot := ((pre ++ post).map Block.base).headD 0, lBestBet := 0 }
      else { heap with lMemRoot := ((pre ++ post).map Block.base).headD 0 }) = { heap with
        lMemRoot := ((pre ++ post).map Block.base).headD 0
        lBestBet := if heap.lBestBet = block.base then 0 else heap.lBestBet } := by
    split <;> rfl
  unfold dropMajor
  rw [load_major_bind direct, load_major_bind direct, next, prev]
  simp only [rooted, betted]
  rw [relinkMajor_ran shows last .next, ok_bind, relinkMajor_ran shows first .prev, ok_bind]
  have size : member (unhang heap.kernel.vm.mem pre post) block.base MajorField.size = block.pages * lPageSize :=
    (shows.unhang_other .size nofun nofun here).trans shown.size
  have pages : member (unhang heap.kernel.vm.mem pre post) block.base MajorField.pages = block.pages :=
    (shows.unhang_other .pages nofun nofun here).trans shown.pages
  unfold unhang at size pages
  simp only [withMem_mem, withMem_withMem]
  rw [load_major_bind direct, withMem_mem, size, load_major_bind direct]
  simp only [withMem_mem]
  rw [pages]
  rfl

/-- What is behind the links of a block stays. -/
theorem Shows.unhang_byte {place : Nat} (outside : ∀ other ∈ pre ++ block :: post, place < physical other.base ∨
    physical other.base + 16 ≤ place) :
    unhang mem pre post place = mem place := by
  have first : ∀ other, post.head? = some other → other ∈ pre ++ block :: post := fun other found => by
    simp [List.mem_of_head? found]
  have last : ∀ other, pre.getLast? = some other → other ∈ pre ++ block :: post := fun other found => by
    simp [List.mem_of_getLast? found]
  unfold unhang
  rw [relinkMajor_byte shows first .prev (.inl rfl) outside, relinkMajor_byte shows last .next (.inr rfl) outside]

theorem Shows.dropped (empty : block.chunks = []) : Shows (dropped heap pre block post) (pre ++ post) := by
  have old {other : Block} (among : other ∈ pre ++ post) : other ∈ pre ++ block :: post := by
    simp only [List.mem_append, List.mem_cons] at among ⊢
    tauto
  have unique := shows.distinct
  have links := shows.listed.links
  rw [List.map_append, List.map_cons] at unique links
  refine ⟨⟨rfl, ?_, ?_, ?_, ?_⟩, ?_, fun other among => shows.fits other (old among), ?_, fun other among => ?_⟩
  · rw [List.map_append]
    refine links.remove unique ?_ ?_ ?_ ?_
    · intro base found
      rw [List.getLast?_map] at found
      obtain ⟨other, last, rfl⟩ := Option.map_eq_some_iff.mp found
      apply Eq.trans (shows.unhang_member (old (by simp [List.mem_of_getLast? last])) .next)
      rw [if_neg (by simp), if_pos ⟨last, rfl⟩, head_base]
    · intro base found
      rw [List.head?_map] at found
      obtain ⟨other, first, rfl⟩ := Option.map_eq_some_iff.mp found
      apply Eq.trans (shows.unhang_member (old (by simp [List.mem_of_head? first])) .prev)
      rw [if_pos ⟨first, rfl⟩, last_base]
    · intro base among apart
      rw [← List.map_append] at among
      obtain ⟨other, member, rfl⟩ := List.mem_map.mp among
      apply Eq.trans (shows.unhang_member (old member) .next)
      rw [if_neg (by simp), if_neg]
      rintro ⟨last, -⟩
      exact apart (by simp [List.getLast?_map, last])
    · intro base among apart
      rw [← List.map_append] at among
      obtain ⟨other, member, rfl⟩ := List.mem_map.mp among
      apply Eq.trans (shows.unhang_member (old member) .prev)
      rw [if_neg, if_neg (by simp)]
      rintro ⟨first, -⟩
      exact apart (by simp [List.head?_map, first])
  · unfold Liballoc.dropped
    simp only
    split
    next => exact .inl rfl
    next other =>
      refine shows.listed.bet.imp_right fun among => ?_
      simp only [List.map_append, List.map_cons, List.mem_append, List.mem_cons] at among ⊢
      tauto
  · have sum := shows.listed.allocated
    have pages := (shows.fits block (by simp)).pages.2
    simp only [Liballoc.dropped, allocated, List.map_append, List.map_cons, List.sum_append, List.sum_cons] at sum ⊢
    rw [sum, wrapSub_wrap]
    unfold wrapSub wrap
    omega
  · apply Eq.trans shows.listed.inuse
    have none : block.lent = 0 := by
      unfold Block.lent
      rw [empty]
      rfl
    simp [lent, none]
  · intro other among
    refine (shows.shown other (old among)).congr (shows.fits other (old among)) fun place low high => ?_
    exact shows.unhang_byte (shows.behind_links (old among) low high)
  · exact shows.apart.sublist (List.Sublist.append_left (List.sublist_cons_self _ _) _)
  · have given := shows.given other (old among)
    exact ⟨given.owned, given.entry⟩

end Dropping

/-- The hook that takes a block back counts its pages in bytes: it does nothing to a block
of less than a page of pages, and leaves the bitmap with a larger one. -/
theorem Ground.frees {kernel : Kernel} (ground : Ground initial roots root kernel) (given : block.Given kernel.vm) :
    liballocFree kernel block.base block.pages = if block.pages < pageSize then .ok kernel
      else .error .outOfBounds := by
  have small := ground.sane.ledger.small
  obtain ⟨range, member, same⟩ := given.entry
  have bound := ground.sane.ledger.accounts.bound range (List.mem_map_of_mem member)
  have most := ground.sane.ledger.bound
  have high : block.base = range.base + mmapIoBase := by
    rw [← same]
    unfold mmapPhysToIo
    exact wrap_of_lt (by simp only [mmapIoBase]; omega)
  unfold liballocFree pmmFree pmmRangeUnused pmmRange
  split
  next few =>
    have none : block.pages / pageSize = 0 := Nat.div_eq_of_lt few
    simp only [none]
    rfl
  next many =>
    obtain ⟨count, counted⟩ : ∃ count, block.pages / pageSize = count + 1 := by
      refine ⟨block.pages / pageSize - 1, ?_⟩
      simp only [pageSize] at many ⊢
      omega
    have outside : ¬ wrap (block.base / pageSize + 0) / 8 < kernel.vm.pmm.bitmapSize := by
      rw [high]
      simp only [wrap, pageSize, mmapIoBase]
      omega
    simp only [counted, List.range_succ_eq_map, List.foldlM_cons]
    unfold bitmapUnused
    simp only
    rw [check, if_neg outside]
    rfl

/-- What `liballoc_free` leaves behind. -/
structure Freed (initial : Pmm) (roots : Nat → Prop) (root : Nat) (heap : Liballoc) (blocks : List Block) (gone : Chunk)
    (blocks' : List Block) (heap' : Liballoc) : Prop where
  shows : Shows heap' blocks'
  ground : Ground initial roots root heap'.kernel
  kernel : heap'.kernel = { heap.kernel with vm := { heap.kernel.vm with mem := heap'.kernel.vm.mem } }
  dead : member heap'.kernel.vm.mem gone.place MinorField.magic = liballocDead
  bytes : ∀ address, mmapIoBase ≤ address → (∀ block ∈ blocks, ¬ block.Header address) →
    heap'.kernel.vm.mem (physical address) = heap.kernel.vm.mem (physical address)
  counters : heap'.lWarningCount = heap.lWarningCount ∧ heap'.lErrorCount = heap.lErrorCount ∧
    heap'.lPossibleOverruns = heap.lPossibleOverruns

/-- The blocks once a chunk has left one of them. -/
def without (pre : List Block) (block : Block) (left right : List Chunk) (post : List Block) : List Block :=
  if left ++ right = [] then pre ++ post else pre ++ block.remove left right :: post

theorem Block.Given.memory {vm : Vm} (given : block.Given vm) (mem : Bytes) : block.Given { vm with mem } :=
  ⟨given.owned, given.entry⟩

theorem Shows.header_owned (shows : Shows heap blocks) (among : block ∈ blocks) {address : Nat}
    (header : block.Header address) : heapOwned heap.kernel.vm (physical address) = true := by
  have fits := shows.fits block among
  have pages := fits.pages
  have stop : block.stop = block.base + block.pages * 4096 := rfl
  simp only [lPageSize] at pages
  rcases header with ⟨low, high⟩ | ⟨chunk, inside, low, high⟩
  · unfold Block.inner at high
    simp only [majorSize] at high
    exact (shows.given block among).owned address low (by omega)
  · have bounds := fits.chunk_bounds inside
    simp only [minorSize] at high
    exact (shows.given block among).owned address (by omega) (by omega)

/-- What is written to headers is written to the heap. -/
theorem Shows.foreign_bytes (shows : Shows heap blocks)
    (same : ∀ address, mmapIoBase ≤ address → (∀ block ∈ blocks, ¬ block.Header address) →
      after (physical address) = heap.kernel.vm.mem (physical address)) {place : Nat}
        (foreign : heapOwned heap.kernel.vm place = false) :
    after place = heap.kernel.vm.mem place := by
  have named : place = physical (place + mmapIoBase) := by
    unfold physical
    omega
  rw [named]
  apply same _ (by omega)
  intro block among header
  rw [named, shows.header_owned among header] at foreign
  cases foreign

/-- Writing to headers leaves the ground as it is. -/
theorem Ground.headers (ground : Ground initial roots root heap.kernel) (shows : Shows heap blocks)
    (same : ∀ address, mmapIoBase ≤ address → (∀ block ∈ blocks, ¬ block.Header address) →
      after (physical address) = heap.kernel.vm.mem (physical address)) :
    Ground initial roots root { heap.kernel with vm := { heap.kernel.vm with mem := after } } :=
  ground.write fun _ => shows.foreign_bytes same

theorem free_meets (ground : Ground initial roots root heap.kernel) (shows : Shows heap (pre ++ block :: post))
    (split : block.chunks = left ++ gone :: right) :
    Meets (heap.free gone.pointer) (Freed initial roots root heap (pre ++ block :: post) gone
      (without pre block left right post))
      (fun _ => left ++ right = [] ∧ pageSize ≤ block.pages) := by
  have here : block ∈ pre ++ block :: post := by simp
  have stands := shows.stands here
  have removed := strike_removed split stands.fits stands.shown
  have shows' := shows.struck split
  have base : (block.remove left right).base = block.base := rfl
  rw [free_eq stands (by simp [split]), freeMinor_eq stands split]
  unfold without
  by_cases empty : left ++ right = []
  · rw [if_pos empty, if_pos empty]
    have run := dropMajor_ran shows'
    rw [base] at run
    have bytes (address : Nat) (above : mmapIoBase ≤ address)
      (outside : ∀ other ∈ pre ++ block :: post, ¬ other.Header address) :
        unhang (strike heap.kernel.vm.mem block left gone right) pre post (physical address) = heap.kernel.vm.mem
          (physical address) := by
      rw [shows'.unhang_byte, removed.bytes address above (outside block here)]
      intro other among
      obtain ⟨twin, inside, same⟩ : ∃ twin ∈ pre ++ block :: post, twin.base = other.base := by
        rcases List.mem_append.mp among with front | back
        · exact ⟨other, by simp [front], rfl⟩
        · rcases List.mem_cons.mp back with rfl | back
          · exact ⟨block, here, rfl⟩
          · exact ⟨other, by simp [back], rfl⟩
      have low := (shows.fits twin inside).low
      rw [← same]
      refine Decidable.byContradiction fun link => outside twin inside (.inl ?_)
      unfold Block.inner
      unfold physical at link
      simp only [majorSize]
      omega
    have dropped := shows'.dropped empty
    have ground' := ground.headers shows bytes
    have freed := ground'.frees ((shows.given block here).memory _)
    have pages : (block.remove left right).pages = block.pages := rfl
    have dead : member (unhang (strike heap.kernel.vm.mem block left gone right) pre post) gone.place MinorField.magic = liballocDead := by
      rw [← removed.dead]
      have inside : gone ∈ block.chunks := by simp [split]
      have direct := stands.fits.direct_chunk inside
      have bounds := stands.fits.chunk_bounds inside
      have bottom := stands.fits.low
      have stop : block.stop = block.base + block.pages * lPageSize := rfl
      apply member_congr direct (by decide) (by decide)
      intro place low high
      simp only [MinorField.field] at low high
      have behind : physical (block.remove left right).base + 16 ≤ place := by
        rw [base]
        unfold physical at low ⊢
        omega
      have within : place < physical (block.remove left right).base + (block.remove left right).pages * lPageSize := by
        rw [base, pages]
        unfold physical at high ⊢
        omega
      exact shows'.unhang_byte (shows'.behind_links (by simp) behind within)
    have hook : liballocFree (Liballoc.dropped (struck heap block left gone right) pre
      (block.remove left right) post).kernel block.base block.pages =
        if block.pages < pageSize then .ok
          (Liballoc.dropped (struck heap block left gone right) pre (block.remove left right) post).kernel
        else .error .outOfBounds := freed
    rw [run, pages]
    unfold systemFree
    rw [hook]
    split
    next few => exact ⟨dropped, ground', rfl, dead, bytes, rfl, rfl, rfl⟩
    next many => exact ⟨empty, Nat.le_of_not_lt many⟩
  · rw [if_neg empty, if_neg empty]
    obtain ⟨bet, ran, known⟩ :=
      betterBet_ran shows' (by simp : block.remove left right ∈ pre ++ block.remove left right :: post)
    rw [base] at ran
    rw [ran]
    have bytes (address : Nat) (above : mmapIoBase ≤ address)
      (outside : ∀ other ∈ pre ++ block :: post, ¬ other.Header address) :
        strike heap.kernel.vm.mem block left gone right (physical address) = heap.kernel.vm.mem (physical address) :=
      removed.bytes address above (outside block here)
    exact ⟨shows'.bets known, ground.headers shows bytes, rfl, removed.dead, bytes, rfl, rfl, rfl⟩

end Navy.Liballoc
