import Navy.Proofs.ModuleSafety
import Navy.Proofs.Operations

/-! What the load of a module leaves in the new space: which addresses mean
which bytes, through everything that happens afterwards. -/

namespace Navy
open Paging Outcome

variable {roots : Nat → Prop} {initial : Pmm} {root : Nat} {kind : Owner → Prop} {moved : Nat → Nat → Prop}
  {start vm middle after : Vm}

/-- A user address that reads `value` from a frame held for the process. -/
def Backed (roots : Nat → Prop) (vm : Vm) (space virt : Nat) (value : BitVec 8) : Prop :=
  ∃ place, userAddress vm.mem space virt = some place ∧ Reserved roots vm (place / 4096) ∧ heapOwned vm place =
    false ∧ vm.mem place = value

theorem Backed.byte {space virt : Nat} {value : BitVec 8} (backed : Backed roots vm space virt value) :
    userByte vm.mem space virt = some value := by
  obtain ⟨place, address, -, -, rfl⟩ := backed
  rw [userByte, address]
  rfl

/-- It keeps its value while its address keeps its meaning. -/
theorem Backed.took {space virt : Nat} {value : BitVec 8} (backed : Backed roots vm space virt value)
    (ledger : Ledger initial vm) (took : Took initial roots root kind moved vm after) (isSpace : roots space)
    (half : UserHalf virt) (still : ¬ moved space virt) : Backed roots after space virt value := by
  obtain ⟨place, address, reserved, outside, same⟩ := backed
  refine ⟨place, ?_, took.moves.reserved reserved, took.enters.outside ledger reserved.held outside, ?_⟩
  · unfold userAddress at address ⊢
    rwa [took.user space virt isSpace half still]
  · exact (took.moves.bytes place reserved.held reserved.apart outside).trans same

/-- What the file says about byte `index` of a segment's memory. -/
def segmentByte (mem : Bytes) (elf : Range) (phdr index : Nat) : BitVec 8 :=
  if index < member mem phdr pFilesz 8 then mem (mmapIoToPhys (wrap (elf.base + member mem phdr pOffset 8)) + index)
    else 0

/-- The address the loader gives byte `offset` of a segment's memory. -/
def imageAddress (mem : Bytes) (phdr offset : Nat) : Nat := alignDown (member mem phdr pVaddr 8) pageSize + offset

/-- The pages a segment is mapped at. -/
def SegmentPage (mem : Bytes) (phdr page : Nat) : Prop :=
  alignDown (member mem phdr pVaddr 8) pageSize / 4096 ≤ page ∧
    page < alignDown (member mem phdr pVaddr 8) pageSize / 4096 + alignUp (member mem phdr pMemsz 8) pageSize / 4096

namespace Granted

variable {addr elf : Range} {phdr : Nat}

/-- Members the loader reads again after the copy still are what they were. -/
theorem copied_member (granted : Granted roots start vm addr) (placed : Placed roots start elf)
    (grows : Grows roots start vm) (fits : SegmentFits start.mem elf phdr)
    (size : member start.mem phdr pMemsz 8 ≤ addr.length) {offset : Nat}
    (among : offset ∈ [pOffset, pVaddr, pFilesz, pMemsz]) :
    member (copied elf phdr addr vm.mem) phdr offset 8 = member start.mem phdr offset 8 := by
  rw [← placed.member_kept grows (fits.members offset among)]
  unfold member
  apply Bytes.read_congr
  intro place low high
  refine granted.copied_apart ?_ (granted.apart placed (placed.inside (fits.members offset among) low high))
  rw [placed.member_kept grows (fits.members pFilesz (by decide))]
  exact fun _ => Nat.le_trans fits.size size

/-- Where the zero fill begins, and how much it clears. -/
theorem fill_extent (granted : Granted roots start vm addr) (fits : SegmentFits start.mem elf phdr)
    (size : member start.mem phdr pMemsz 8 ≤ addr.length) :
    mmapIoToPhys (wrap (mmapPhysToIo addr.base + member start.mem phdr pFilesz 8)) =
      addr.base + member start.mem phdr pFilesz 8 ∧
      wrapSub (member start.mem phdr pMemsz 8) (member start.mem phdr pFilesz 8) =
        member start.mem phdr pMemsz 8 - member start.mem phdr pFilesz 8 := by
  have small := granted.small
  have fitting := fits.size
  have word := member_lt start.mem phdr pMemsz
  constructor
  · rw [io_offset, wrap_of_lt (by omega)]
  · simp only [wrapSub, wrap]
    omega

/-- The frames of a segment as the loader fills them, and the rest as it was. -/
theorem filled_spec (granted : Granted roots start vm addr) (placed : Placed roots start elf)
    (grows : Grows roots start vm) (fits : SegmentFits start.mem elf phdr)
    (size : member start.mem phdr pMemsz 8 ≤ addr.length) :
    (∀ place, ¬ (addr.base ≤ place ∧ place < addr.base + addr.length) → filled elf phdr addr vm.mem place =
      vm.mem place) ∧
      ((member start.mem phdr pFilesz 8 ≠ 0 → wrap (elf.base + member start.mem phdr pOffset 8) ≠ 0) →
        ∀ index, index < member start.mem phdr pMemsz 8 → filled elf phdr addr vm.mem (addr.base + index) =
          segmentByte start.mem elf phdr index) := by
  have small := granted.small
  have kept {offset : Nat} (among : offset ∈ [pOffset, pVaddr, pFilesz, pMemsz]) :
      member vm.mem phdr offset 8 = member start.mem phdr offset 8 :=
        placed.member_kept grows (fits.members offset among)
  have fileFits : wrap (elf.base + member vm.mem phdr pOffset 8) ≠ 0 → member vm.mem phdr pFilesz 8 ≤ addr.length := by
    rw [kept (show pFilesz ∈ _ by decide)]
    exact fun _ => Nat.le_trans fits.size size
  have filesz := granted.copied_member placed grows fits size (show pFilesz ∈ _ by decide)
  have memsz := granted.copied_member placed grows fits size (show pMemsz ∈ _ by decide)
  refine ⟨fun place outside => ?_, fun present index inside => ?_⟩
  · rw [granted.filled_apart ?_ ?_ outside, granted.copied_apart fileFits outside]
    · rw [filesz, memsz]
      exact fits.size
    · rwa [memsz]
  · obtain ⟨target, rest⟩ := granted.fill_extent fits size
    unfold filled
    rw [filesz, memsz, rest]
    unfold memset segmentByte
    rw [target]
    split
    next file =>
      rw [Bytes.fill_apart _ _ _ _ _ (by omega)]
      have source := present (by omega)
      have data := fits.data source (by omega)
      unfold copied memcpy
      rw [kept (show pOffset ∈ _ by decide), kept (show pFilesz ∈ _ by decide), if_neg source, granted.pointer]
      have module (offset : Nat) (below : offset < member start.mem phdr pFilesz 8) :
          Module elf (mmapIoToPhys (wrap (elf.base + member start.mem phdr pOffset 8)) + offset) :=
        placed.inside data (by omega) (by omega)
      rw [Bytes.copy_inside _ _ _ _ _ file ?_]
      · exact grows.reserved_byte (placed.reserved _ (module index file))
      · -- the module's bytes and the frames do not overlap
        by_contra overlap
        have fits := fits.size
        refine granted.apart placed (module
          (addr.base - mmapIoToPhys (wrap (elf.base + member start.mem phdr pOffset 8))) (by omega)) ?_
        omega
    next zero =>
      have := fits.size
      exact Bytes.fill_inside _ _ _ _ _ (by omega) (by omega)

end Granted

/-- Addresses in one page are translated by one entry. -/
theorem walk_page (mem : Bytes) (root : Nat) {virt other : Nat} (same : virt / 4096 = other / 4096) :
    walk mem root virt = walk mem root other := by
  have index (level : Nat) : pmlxGetIndex virt level = pmlxGetIndex other level := by
    have word : wrap virt / 4096 = wrap other / 4096 := by
      simp only [wrap]
      omega
    rw [pmlxGetIndex_eq, pmlxGetIndex_eq, Nat.pow_add, ← Nat.div_div_eq_div_mul, ← Nat.div_div_eq_div_mul]
    exact congrArg (· / 2 ^ (level * 9) % 512) word
  simp only [walk, pml4GetIndex, pml3GetIndex, pml2GetIndex, pml1GetIndex, index]

/-- An address whose page is open to user mode. -/
theorem userAddress_walk {mem : Bytes} {space virt : Nat} {target : Translation}
    (walked : walk mem space virt = some target) (user : target.user = true) :
    userAddress mem space virt = some (target.physical + virt % pageSize) := by
  rw [userAddress, walked]
  exact if_pos user

/-- The rounding of a mapping's base is part of the mapping. -/
theorem vmmMapRange_base (vm : Vm) (pml base length : Nat) (phys : Range) (isUser : Bool) :
    vmmMapRange vm pml ⟨base, length⟩ phys isUser =
      vmmMapRange vm pml ⟨alignDown base pageSize, length⟩ phys isUser := by
  have twice : alignDown (alignDown base pageSize) pageSize = alignDown base pageSize := by
    rw [alignDown_page, alignDown_page]
    simp only [wrap]
    omega
  unfold vmmMapRange
  simp only [twice]

/-- A segment that fits is loaded at the page its address lies in, whatever its
place in that page. -/
theorem loadSegment_took {elf : Range} {space phdr : Nat} (sound : Sane initial roots root vm)
    (grows : Grows roots start vm) (placed : Placed roots start elf) (bound : start.pmm.bitmapSize ≤ 2 ^ 34)
    (isSpace : roots space) (other : space ≠ root) (fits : SegmentFits start.mem elf phdr)
    (ran : (loadSegment elf (mmapPhysToIo space) phdr vm).outcome = .ok after) :
    Took initial roots root (SegmentOwner (mmapPhysToIo space))
        (fun place virt => place = space ∧ SegmentPage start.mem phdr (virt / 4096)) vm after ∧
      Grows roots vm after ∧
      ((member start.mem phdr pFilesz 8 ≠ 0 → wrap (elf.base + member start.mem phdr pOffset 8) ≠ 0) →
        ∀ index, index < member start.mem phdr pMemsz 8 →
          UserHalf (imageAddress start.mem phdr index) ∧
            Backed roots after space (imageAddress start.mem phdr index) (segmentByte start.mem elf phdr index)) := by
  obtain ⟨addr, given, mapped, allocated, some, mapping, rfl⟩ := loadSegment_ok ran
  have memsz := placed.member_kept grows (fits.members pMemsz (by decide))
  rw [memsz] at allocated
  obtain ⟨loading, granted, mem, size, length⟩ :=
    Loading.granted ⟨sound.spaces, grows⟩ bound (member_lt _ _ _) allocated some
  have vaddr := placed.member_kept loading.grows (fits.members pVaddr (by decide))
  rw [vaddr, vmmMapRange_base] at mapping
  have small := granted.small
  have aligned := granted.length
  have half := fits.half
  rw [← length] at half
  have base : alignDown (member start.mem phdr pVaddr 8) pageSize % 4096 = 0 := by
    rw [alignDown_page]
    omega
  -- the frames, and their pages in the space
  have segment : Owner.segment (mmapPhysToIo space) ≠ .heap := by simp
  have frames : Took initial roots root _ (fun place virt => place = space ∧
    SegmentPage start.mem phdr (virt / 4096)) vm given :=
    sound.alloc segment allocated
  obtain ⟨-, grown, -, owners, fresh⟩ := sound.allocated allocated
  have pageOf (index : Nat) (inside : index < addr.length / 4096) :
      wrap (index * pageSize + alignDown (alignDown (member start.mem phdr pVaddr 8) pageSize) pageSize) =
        alignDown (member start.mem phdr pVaddr 8) pageSize + index * 4096 := by
    rw [alignDown_page (alignDown _ _)]
    simp only [wrap, pageSize] at *
    omega
  obtain ⟨tables, grown'⟩ := frames.sound.mapUser isSpace other (fun index inside => by
    dsimp only at inside ⊢
    rw [pageOf index inside]
    simp only [UserHalf]
    omega) mapping
  have tables : Took initial roots root (SegmentOwner (mmapPhysToIo space))
      (fun place virt => place = space ∧ SegmentPage start.mem phdr (virt / 4096)) given mapped := by
    refine tables.mono (fun _ => .inr) fun place virt hit => ?_
    obtain ⟨same, index, inside, page⟩ := hit
    dsimp only at inside page
    refine ⟨same, ?_⟩
    rw [page, pageOf index inside]
    unfold SegmentPage
    rw [← length]
    omega
  have took := (frames.mono (fun _ => .inl) fun _ _ => id).trans sound.ledger tables
  have all := grown.trans grown'
  -- the bytes
  have granted' := granted.grow grown'
  obtain ⟨outside, bytes⟩ := granted'.filled_spec placed (loading.grows.trans grown') fits size
  have same (place : Nat) (away : ¬ place / 4096 ∈ addr.pages) : filled elf phdr addr mapped.mem place =
    mapped.mem place :=
    outside place (mt granted'.page.mpr away)
  obtain ⟨took', grows', walks, kept⟩ :=
    took.overwrite all granted'.reserved (fun page inside => (fresh page inside).1) same
  refine ⟨took', grows', fun present index inside => ⟨?_, ?_⟩⟩
  · unfold UserHalf imageAddress
    omega
  have here : addr.base ≤ addr.base + index ∧ addr.base + index < addr.base + addr.length := by omega
  have page := granted'.page.mpr here
  refine ⟨addr.base + index, ?_, kept _ (granted'.reserved _ page), ?_, bytes present index inside⟩
  · have proper : Proper ⟨alignDown (member start.mem phdr pVaddr 8) pageSize, addr.length⟩ :=
      ⟨base, aligned, by dsimp only; omega, fun virt _ high => .inl (by dsimp only at high; omega)⟩
    have user (virt : Nat) (high : virt < alignDown (member start.mem phdr pVaddr 8) pageSize +
      addr.length) : UserHalf virt := by
      simp only [UserHalf]
      omega
    have updated := vmmMapRange_updated proper granted.base (by omega) frames.sound.spaces isSpace
      (fun virt _ high => .inl (user virt high)) mapping
    have walked := updated.hits space (alignDown (member start.mem phdr pVaddr 8) pageSize + index) isSpace
      (.inl (by omega))
      (Range.mem_pages.mpr (by dsimp only; omega)) (.inl rfl)
    refine (userAddress_walk ((walks _ _ isSpace).trans walked) rfl).trans ?_
    generalize alignDown (member start.mem phdr pVaddr 8) pageSize = first at base ⊢
    simp only [pageSize, Option.some.injEq]
    omega
  · have among : (Owner.segment (mmapPhysToIo space), addr) ∈ mapped.owners := by
      refine (vmmMapRange_enters mapping).kept ?_
      rw [owners]
      exact List.mem_cons_self
    exact took'.sound.ledger.unheaped among segment page

/-- The header at `index` is one of a segment. -/
def IsSegment (mem : Bytes) (elf : Range) (index : Nat) : Prop :=
  index < member mem elf.base ePhnum 2 ∧ member mem (phdrAt mem elf index) pType 4 = ptLoad

/-- A segment among the first `count` headers is mapped at the page. -/
def ImagePage (mem : Bytes) (elf : Range) (count page : Nat) : Prop :=
  ∃ index < count, IsSegment mem elf index ∧ SegmentPage mem (phdrAt mem elf index) page

/-- No header after `index` takes the page over. -/
def Uncovered (mem : Bytes) (elf : Range) (index count page : Nat) : Prop :=
  ∀ later, index < later → later < count → IsSegment mem elf later → ¬ SegmentPage mem (phdrAt mem elf later) page

/-- The machine after the first `count` headers: every segment is in the space,
as far as no later one lies over it. -/
structure Imaged (initial : Pmm) (roots : Nat → Prop) (root : Nat) (start : Vm) (elf : Range) (space count : Nat)
    (vm : Vm) : Prop where
  took : Took initial roots root (SegmentOwner (mmapPhysToIo space))
    (fun place virt => place = space ∧ ImagePage start.mem elf count (virt / 4096)) start vm
  grows : Grows roots start vm
  image : ∀ index < count, IsSegment start.mem elf index →
    ∀ offset < member start.mem (phdrAt start.mem elf index) pMemsz 8,
    Uncovered start.mem elf index count (imageAddress start.mem (phdrAt start.mem elf index) offset / 4096) →
      UserHalf (imageAddress start.mem (phdrAt start.mem elf index) offset) ∧
        Backed roots vm space (imageAddress start.mem (phdrAt start.mem elf index) offset)
        (segmentByte start.mem elf (phdrAt start.mem elf index) offset)

/-- The data of every segment has an address. -/
def DataPresent (mem : Bytes) (elf : Range) : Prop :=
  ∀ index, IsSegment mem elf index → member mem (phdrAt mem elf index) pFilesz 8 ≠ 0 →
    wrap (elf.base + member mem (phdrAt mem elf index) pOffset 8) ≠ 0

namespace Imaged

variable {elf : Range} {space count : Nat}

theorem begin (sound : Sane initial roots root vm) : Imaged initial roots root vm elf space 0 vm :=
  ⟨.refl sound _ _, .refl _ _, fun _ none => absurd none (Nat.not_lt_zero _)⟩

theorem widen (imaged : Imaged initial roots root start elf space count vm) :
    Took initial roots root (SegmentOwner (mmapPhysToIo space))
      (fun place virt => place = space ∧ ImagePage start.mem elf (count + 1) (virt / 4096)) start vm :=
  imaged.took.mono (fun _ => id) fun _ _ hit => by
    obtain ⟨same, index, before, segment, page⟩ := hit
    exact ⟨same, index, Nat.lt_succ_of_lt before, segment, page⟩

theorem skip (imaged : Imaged initial roots root start elf space count vm) (other : ¬ IsSegment start.mem elf count) :
    Imaged initial roots root start elf space (count + 1) vm := by
  refine ⟨imaged.widen, imaged.grows, fun index before segment offset inside last => ?_⟩
  have earlier : index < count := by
    apply Nat.lt_of_le_of_ne (Nat.le_of_lt_succ before)
    rintro rfl
    exact other segment
  exact imaged.image index earlier segment offset inside fun later behind among =>
    last later behind (Nat.lt_succ_of_lt among)

theorem segment (imaged : Imaged initial roots root start elf space count vm) (ledger : Ledger initial start)
    (placed : Placed roots start elf) (bound : start.pmm.bitmapSize ≤ 2 ^ 34) (isSpace : roots space)
    (other : space ≠ root) (among : IsSegment start.mem elf count)
    (fits : SegmentFits start.mem elf (phdrAt start.mem elf count)) (present : DataPresent start.mem elf)
    (ran : (loadSegment elf (mmapPhysToIo space) (phdrAt start.mem elf count) vm).outcome = .ok after) :
    Imaged initial roots root start elf space (count + 1) after := by
  obtain ⟨took, grows, image⟩ := loadSegment_took imaged.took.sound imaged.grows placed bound isSpace other fits ran
  have turn := took.mono (fun _ => id) fun place virt
    (hit : place = space ∧ SegmentPage start.mem (phdrAt start.mem elf count) (virt / 4096)) =>
    show place = space ∧ ImagePage start.mem elf (count + 1)
      (virt / 4096) from ⟨hit.1, count, Nat.lt_succ_self _, among, hit.2⟩
  refine ⟨imaged.widen.trans ledger turn, imaged.grows.trans grows, fun index before segment offset inside last => ?_⟩
  rcases Nat.lt_succ_iff_lt_or_eq.mp before with earlier | rfl
  · have still := last count earlier (Nat.lt_succ_self _) among
    obtain ⟨half, backed⟩ := imaged.image index earlier segment offset inside fun later behind among' =>
      last later behind (Nat.lt_succ_of_lt among')
    exact ⟨half, backed.took imaged.took.sound.ledger took isSpace half fun hit => still hit.2⟩
  · exact image (present index among) offset inside

theorem finish {fuel : Nat} (imaged : Imaged initial roots root start elf space (2 ^ 16 - fuel) vm)
    (ledger : Ledger initial start) (placed : Placed roots start elf) (bound : start.pmm.bitmapSize ≤ 2 ^ 34)
    (isSpace : roots space) (other : space ≠ root) (fits : ModuleFits start.mem elf)
    (present : DataPresent start.mem elf) (most : fuel ≤ 2 ^ 16)
    (within : 2 ^ 16 - fuel ≤ member start.mem elf.base ePhnum 2)
    (ran : (loadSegments elf (mmapPhysToIo space) fuel (phdrAt start.mem elf (2 ^ 16 - fuel)) vm).outcome = .ok after) :
    Imaged initial roots root start elf space (member start.mem elf.base ePhnum 2) after := by
  have count : Inside elf (wrap (elf.base + ePhnum)) 2 :=
    (header_inside placed _ _ (by decide) (by decide)).mpr fits.header
  have stride : Inside elf (wrap (elf.base + ePhentsize)) 2 :=
    (header_inside placed _ _ (by decide) (by decide)).mpr (Nat.le_trans (by decide) fits.header)
  induction fuel generalizing vm with
  | zero =>
    have small : member start.mem elf.base ePhnum 2 < 2 ^ 16 := by
      unfold member
      exact Bytes.read_lt start.mem _ 2
    omega
  | succ fuel ih =>
    have following : 2 ^ 16 - (fuel + 1) + 1 = 2 ^ 16 - fuel := by omega
    rcases loadSegments_ok ran with ⟨more, middle, turn, rest⟩ | ⟨fewer, rfl⟩
    · rw [placed.member_kept imaged.grows count] at more
      obtain ⟨inside, segment⟩ := fits.segments _ more
      rw [placed.member_kept imaged.grows inside] at turn
      have next : Imaged initial roots root start elf space (2 ^ 16 - fuel) middle := by
        rw [← following]
        unfold loadHeader at turn
        split at turn
        next load => exact imaged.segment ledger placed bound isSpace other ⟨more, load⟩ (segment load) present turn
        next skipped =>
          obtain rfl := Except.ok.inj turn
          exact imaged.skip fun among => skipped among.2
      rw [placed.member_kept next.grows stride, phdrAt_succ, following] at rest
      exact ih next (by omega) (by omega) rest
    · rw [placed.member_kept imaged.grows count] at fewer
      rwa [show member start.mem elf.base ePhnum 2 = 2 ^ 16 - (fuel + 1) by omega]

end Imaged

/-- The pages of the user stack. -/
def StackPage (page : Nat) : Prop := userStackBase / 4096 ≤ page ∧ page < userStackBase / 4096 + kernelStackSize / 4096

/-- The stack's frames, page by page, at the addresses of the user stack. -/
def Stacked (mem : Bytes) (space : Nat) (stack : Range) : Prop :=
  ∀ offset < kernelStackSize, walk mem space (userStackBase + offset) =
    some ⟨stack.base + offset / 4096 * 4096, true, true⟩

/-- `task_init` takes heap, a stack and the tables to map it. -/
theorem taskInit_took {kernel grown : Kernel} {space rip : Nat} {block bstack : HeapCall} {process : Process}
    (sound : Sane initial roots root kernel.vm) (homed : Homed roots kernel) (isSpace : roots space)
    (other : space ≠ root) (ran : taskInit kernel (mmapPhysToIo space) rip block bstack = .ok (process, grown)) :
    Took initial roots root (· ≠ .root) (fun place virt => place = space ∧ StackPage (virt / 4096)) kernel.vm grown.vm ∧
      process = newTask (mmapPhysToIo space) rip bstack.pointer process.stack ∧
        Stacked grown.vm.mem space process.stack := by
  obtain ⟨made, -, -⟩ := taskInit_made sound.ledger ran
  obtain ⟨_, zeroed, pointer, heaped, stack, given, mapped, first, second, allocated, some, mapping, rfl, rfl⟩ :=
    taskInit_ok ran
  obtain ⟨zero, sched⟩ := kcalloc_took sound homed first
  obtain ⟨heap, -, -⟩ := kmalloc_took zero.sound (homed.congr sched zero.moves.kernel) second
  have frames := (heap.sound.alloc (by simp) allocated : Took initial roots root _
    (fun place virt => place = space ∧ StackPage (virt / 4096)) _ _)
  have page (index : Nat) (inside : index < 4) : wrap (index * pageSize + alignDown userStackBase pageSize) =
    userStackBase + index * 4096 := by
    rw [alignDown_page]
    simp only [wrap, userStackBase, pageSize]
    omega
  have half (index : Nat) (inside : index < 4) : UserHalf
    (wrap (index * pageSize + alignDown userStackBase pageSize)) := by
    rw [page index inside]
    simp only [UserHalf, userStackBase]
    omega
  obtain ⟨tables, -⟩ :=
    @Sane.mapUser _ _ _ _ _ frames.sound space ⟨userStackBase, kernelStackSize⟩ _ _ isSpace other half mapping
  have widen {kind : Owner → Prop} {moved : Nat → Nat → Prop} {vm after : Vm}
    (took : Took initial roots root kind moved vm after)
      (other : ∀ owner, kind owner → owner ≠ .root) (within : ∀ place virt, moved place virt → place = space ∧
        StackPage (virt / 4096)) :=
    took.mono other within
  have heapOnly (owner : Owner) (kind : HeapOwner owner) : owner ≠ .root := by
    cases kind with
    | inl same => simp [same]
    | inr same => simp [same]
  refine ⟨(((widen zero heapOnly fun _ _ => False.elim).trans sound.ledger (widen heap heapOnly fun _ _ =>
    False.elim)).trans sound.ledger
    (widen frames (fun _ same => by simp [same]) fun _ _ => id)).trans sound.ledger
      (widen tables (fun _ same => by simp [same]) fun place virt hit => ?_), made, fun offset inside => ?_⟩
  · obtain ⟨here, index, inside, same⟩ := hit
    have four : index < 4 := inside
    dsimp only at same
    rw [page index four] at same
    refine ⟨here, ?_⟩
    unfold StackPage
    simp only [userStackBase, kernelStackSize] at same ⊢
    omega
  · have aligned := frames.sound.ledger.accounts.aligned stack (by rw [(alloc_entered allocated).owners]; simp)
    have bound := frames.sound.ledger.accounts.bound stack (by rw [(alloc_entered allocated).owners]; simp)
    have most := frames.sound.ledger.bound
    have proper : Proper ⟨userStackBase, kernelStackSize⟩ := by
      refine ⟨by decide, by decide, by decide, fun virt _ high => .inl ?_⟩
      simp only [userStackBase, kernelStackSize] at high
      omega
    have user (virt : Nat) (high : virt < userStackBase + kernelStackSize) : UserHalf virt := by
      simp only [UserHalf, userStackBase, kernelStackSize] at *
      omega
    have updated := vmmMapRange_updated proper aligned.1 (by omega) frames.sound.spaces isSpace
      (fun virt _ high => .inl (user virt high)) mapping
    have within : (userStackBase + offset) / 4096 ∈ (Range.mk userStackBase kernelStackSize).pages := by
      rw [Range.mem_pages]
      simp only [userStackBase, kernelStackSize] at *
      omega
    have walked := updated.hits space _ isSpace (.inl (user _ (Nat.add_lt_add_left inside _))) within (.inl rfl)
    have place : (userStackBase + offset) / 4096 * 4096 - userStackBase = offset / 4096 * 4096 := by
      simp only [userStackBase]
      omega
    rw [mapTarget, place] at walked
    exact walked

end Navy
