import Navy.Proofs.Loads

/-! A module in the space of its process: which addresses show which bytes of the
file once `load_elf_module` has come back. -/

namespace Navy
open Paging Outcome

variable {roots : Nat → Prop} {initial : Pmm} {root : Nat}

/-- What a module says reads the same in two memories. -/
structure SameModule (mem after : Bytes) (elf : Range) : Prop where
  phnum : member after elf.base ePhnum 2 = member mem elf.base ePhnum 2
  entry : member after elf.base eEntry 8 = member mem elf.base eEntry 8
  phdr : ∀ index, phdrAt after elf index = phdrAt mem elf index
  segment : ∀ index, IsSegment after elf index ↔ IsSegment mem elf index
  members : ∀ index, IsSegment mem elf index → ∀ offset ∈ [pOffset, pVaddr, pFilesz, pMemsz],
    member after (phdrAt mem elf index) offset 8 = member mem (phdrAt mem elf index) offset 8
  bytes : ∀ index, IsSegment mem elf index → ∀ offset,
    segmentByte after elf (phdrAt mem elf index) offset = segmentByte mem elf (phdrAt mem elf index) offset

/-- A machine that only grew still holds the module as it was. -/
theorem ModuleFits.same {vm after : Vm} {elf : Range} (placed : Placed roots vm elf) (fits : ModuleFits vm.mem elf)
    (present : DataPresent vm.mem elf) (grows : Grows roots vm after) : SameModule vm.mem after.mem elf := by
  have header {offset count : Nat} (some : count ≠ 0) (small : offset + count ≤ ePhnum + 2) :
      member after.mem elf.base offset count = member vm.mem elf.base offset count :=
    placed.member_kept grows ((header_inside placed _ _ some (Nat.le_trans small (by decide))).mpr
      (Nat.le_trans small fits.header))
  have phnum := header (show (2 : Nat) ≠ 0 by decide) (Nat.le_refl (ePhnum + 2))
  have phdr (index : Nat) : phdrAt after.mem elf index = phdrAt vm.mem elf index := by
    unfold phdrAt
    rw [header (by decide) (by decide), header (by decide) (by decide)]
  have members (index : Nat) (segment : IsSegment vm.mem elf index) (offset : Nat)
    (among : offset ∈ [pOffset, pVaddr, pFilesz, pMemsz]) :
      member after.mem (phdrAt vm.mem elf index) offset 8 = member vm.mem (phdrAt vm.mem elf index) offset 8 :=
    placed.member_kept grows (((fits.segments index segment.1).2 segment.2).members offset among)
  refine ⟨phnum, header (by decide) (by decide), phdr, fun index => ?_, members, fun index segment offset => ?_⟩
  · unfold IsSegment
    rw [phnum, phdr]
    constructor
    · intro both
      rwa [placed.member_kept grows (fits.segments index both.1).1] at both
    · intro both
      rwa [placed.member_kept grows (fits.segments index both.1).1]
  · unfold segmentByte
    rw [members index segment pFilesz (by decide), members index segment pOffset (by decide)]
    split
    next file =>
      have filled : member vm.mem (phdrAt vm.mem elf index) pFilesz 8 ≠ 0 := by omega
      have data := ((fits.segments index segment.1).2 segment.2).data (present index segment filled) filled
      exact grows.reserved_byte (placed.reserved _ (placed.inside data (Nat.le_add_right _ _) (by omega)))
    next => rfl

namespace SameModule

variable {mem after : Bytes} {elf : Range} {index : Nat}

theorem page (same : SameModule mem after elf) (segment : IsSegment mem elf index) (page : Nat) :
    SegmentPage after (phdrAt after elf index) page ↔ SegmentPage mem (phdrAt mem elf index) page := by
  unfold SegmentPage
  rw [same.phdr, same.members index segment pVaddr (by decide), same.members index segment pMemsz (by decide)]

theorem address (same : SameModule mem after elf) (segment : IsSegment mem elf index) (offset : Nat) :
    imageAddress after (phdrAt after elf index) offset = imageAddress mem (phdrAt mem elf index) offset := by
  unfold imageAddress
  rw [same.phdr, same.members index segment pVaddr (by decide)]

theorem image (same : SameModule mem after elf) (count page : Nat) : ImagePage after elf count page ↔
    ImagePage mem elf count page := by
  constructor
  · intro covered
    obtain ⟨index, before, segment, here⟩ := covered
    have segment := (same.segment index).mp segment
    exact ⟨index, before, segment, (same.page segment page).mp here⟩
  · intro covered
    obtain ⟨index, before, segment, here⟩ := covered
    exact ⟨index, before, (same.segment index).mpr segment, (same.page segment page).mpr here⟩

theorem uncovered (same : SameModule mem after elf) {count page : Nat} (last : Uncovered mem elf index count page) :
    Uncovered after elf index count page := by
  intro later behind among segment here
  have segment := (same.segment later).mp segment
  exact last later behind among segment ((same.page segment page).mp here)

end SameModule

/-- The number of program headers. -/
def headerCount (mem : Bytes) (elf : Range) : Nat := member mem elf.base ePhnum 2

/-- What a load leaves: the process, a space of its own with the segments and the
stack in it and nothing else, and the machine as sound as it was. -/
structure Loaded (initial : Pmm) (roots : Nat → Prop) (root : Nat) (start : Vm) (elf : Range)
    (bstack : HeapCall) (fresh : Nat) (process : Process) (after : Vm) : Prop where
  stack : Stacked after.mem fresh process.stack
  process : process = newTask (mmapPhysToIo fresh) (member start.mem elf.base eEntry 8) bstack.pointer process.stack
  new : ¬ roots fresh
  sound : Sane initial (fun other => roots other ∨ other = fresh) root after
  opened : Opened roots start → Opened (fun other => roots other ∨ other = fresh) after
  image : ∀ index, IsSegment start.mem elf index → ∀ offset < member start.mem (phdrAt start.mem elf index) pMemsz 8,
    Uncovered start.mem elf index (headerCount start.mem elf)
      (imageAddress start.mem (phdrAt start.mem elf index) offset / 4096) →
    ¬ StackPage (imageAddress start.mem (phdrAt start.mem elf index) offset / 4096) →
      Backed (fun other => roots other ∨ other = fresh) after fresh
        (imageAddress start.mem (phdrAt start.mem elf index) offset)
        (segmentByte start.mem elf (phdrAt start.mem elf index) offset)
  empty : ∀ virt, UserHalf virt → ¬ ImagePage start.mem elf (headerCount start.mem elf) (virt / 4096) →
    ¬ StackPage (virt / 4096) →
    walk after.mem fresh virt = none

/-- The space CR3 gets is the one that was made. -/
theorem Loaded.switch {start after : Vm} {elf : Range} {bstack : HeapCall} {fresh : Nat} {process : Process}
    (loaded : Loaded initial roots root start elf bstack fresh process after) : vmmSwitchSpace process.pml = fresh := by
  rw [loaded.process]
  exact phys_io _ (loaded.sound.spaces.aligned fresh (.inr rfl)).2

/-- The two machines in the middle of a load: the one with the new space, and the
one with the segments in it. -/
structure LoadSteps (initial : Pmm) (roots : Nat → Prop) (root : Nat) (kernel : Kernel) (elf : Range) (fresh : Nat)
    (made loaded : Vm) : Prop where
  make : vmmSpaceCreate kernel.vm = .ok (mmapPhysToIo fresh, made)
  loop : (loadSegments elf (mmapPhysToIo fresh) (2 ^ 16) (phdrAt made.mem elf (2 ^ 16 - 2 ^ 16)) made).outcome =
    .ok loaded
  created : Created roots root kernel.vm fresh made
  new : ¬ roots fresh
  apart : fresh ≠ root
  sound : Sane initial (fun other => roots other ∨ other = fresh) root made
  opened : Opened roots kernel.vm → Opened (fun other => roots other ∨ other = fresh) made
  placed : Placed (fun other => roots other ∨ other = fresh) made elf
  bound : made.pmm.bitmapSize ≤ 2 ^ 34
  same : SameModule kernel.vm.mem made.mem elf
  fits : ModuleFits made.mem elf
  imaged : Imaged initial (fun other => roots other ∨ other = fresh) root made elf fresh
    (member made.mem elf.base ePhnum 2) loaded
  homed : Homed (fun other => roots other ∨ other = fresh) { kernel with vm := loaded }

theorem loadElfModule_steps {kernel grown : Kernel} {elf : Range} {block bstack : HeapCall} {process : Process}
    (sound : Sane initial roots root kernel.vm) (homed : Homed roots kernel) (placed : Placed roots kernel.vm elf)
    (fits : ModuleFits kernel.vm.mem elf) (present : DataPresent kernel.vm.mem elf)
    (ran : (loadElfModule kernel elf block bstack).outcome = .ok (process, grown)) :
    ∃ fresh made loaded, LoadSteps initial roots root kernel elf fresh made loaded ∧
      taskInit { kernel with vm := loaded } (mmapPhysToIo fresh)
        (member loaded.mem elf.base eEntry 8) block bstack = .ok (process, grown) := by
  obtain ⟨pml, vm, loaded, made, loop, task⟩ := loadElfModule_ok ran
  have ready : Loadable roots root kernel.vm elf := ⟨sound.spaces, sound.isRoot, sound.own, placed, sound.ledger.small⟩
  obtain ⟨fresh, rfl, created, -, placed', bound⟩ := ready.created made
  obtain ⟨sound', opened⟩ := created.sound sound made
  have same := fits.same placed present created.grows
  have new : ¬ roots fresh := fun old => created.unreached ⟨fresh, [], old, by simp, rfl⟩
  have apart : fresh ≠ root := fun clash => new (clash ▸ sound.isRoot)
  have fits' := fits.congr placed fun _ _ _ inside => placed.member_kept created.grows inside
  have present' : DataPresent vm.mem elf := by
    intro index segment
    have segment := (same.segment index).mp segment
    rw [same.phdr, same.members index segment pFilesz (by decide), same.members index segment pOffset (by decide)]
    exact present index segment
  have first : wrap (elf.base + member kernel.vm.mem elf.base ePhoff 8) = phdrAt vm.mem elf (2 ^ 16 - 2 ^ 16) := by
    rw [same.phdr]
    simp [phdrAt]
  rw [first] at loop
  have imaged := (Imaged.begin sound').finish sound'.ledger placed' bound (.inr rfl) apart fits' present'
    (Nat.le_refl _)
    (Nat.zero_le _) loop
  refine ⟨fresh, vm, loaded, ⟨made, loop, created, new, apart, sound', opened, placed', bound, same, fits', imaged,
    fun space chosen => ?_⟩, task⟩
  have kept : Homed roots { kernel with vm := loaded } :=
    homed.congr rfl (imaged.took.moves.kernel.trans created.grows.kernel)
  obtain ⟨home, isHome, rfl⟩ := kept space chosen
  exact ⟨home, .inl isHome, rfl⟩

theorem loadElfModule_loaded {kernel grown : Kernel} {elf : Range} {block bstack : HeapCall} {process : Process}
    (sound : Sane initial roots root kernel.vm) (homed : Homed roots kernel) (placed : Placed roots kernel.vm elf)
    (fits : ModuleFits kernel.vm.mem elf) (present : DataPresent kernel.vm.mem elf)
    (ran : (loadElfModule kernel elf block bstack).outcome = .ok (process, grown)) :
    ∃ fresh, Loaded initial roots root kernel.vm elf bstack fresh process grown.vm := by
  obtain ⟨fresh, vm, loaded, steps, task⟩ := loadElfModule_steps sound homed placed fits present ran
  obtain ⟨-, -, created, new, apart, -, opened, placed', -, same, -, imaged, homed'⟩ := steps
  obtain ⟨took, process, stacked⟩ := taskInit_took imaged.took.sound homed' (.inr rfl) apart task
  have entry : member loaded.mem elf.base eEntry 8 = member kernel.vm.mem elf.base eEntry 8 := by
    rw [placed'.member_kept imaged.grows
      ((header_inside placed' _ _ (by decide) (by decide)).mpr (Nat.le_trans (by decide) fits.header))]
    exact same.entry
  rw [entry] at process
  refine ⟨fresh, stacked, process, new, took.sound, fun open' =>
    took.opened (imaged.took.opened (opened open')), ?_, ?_⟩
  · intro index segment offset inside last free
    have memsz : member vm.mem (phdrAt vm.mem elf index) pMemsz 8 = member kernel.vm.mem
      (phdrAt kernel.vm.mem elf index) pMemsz 8 := by
      rw [same.phdr]
      exact same.members index segment pMemsz (by decide)
    obtain ⟨half, backed⟩ :=
      imaged.image index (by rw [same.phnum]; exact segment.1) ((same.segment index).mpr segment) offset
      (by rw [memsz]; exact inside) (by rw [same.address segment, same.phnum]; exact same.uncovered last)
    rw [same.address segment] at half backed
    rw [same.phdr, same.bytes index segment] at backed
    exact backed.took imaged.took.sound.ledger took (.inr rfl) half fun hit => free hit.2
  · intro virt half outside free
    rw [took.user fresh virt (.inr rfl) half fun hit => free hit.2, imaged.took.user fresh virt (.inr rfl) half,
      created.empty virt half]
    intro hit
    rw [same.phnum] at hit
    exact outside ((same.image _ _).mp hit.2)

/-- The members of a program header. -/
def vaddrOf (mem : Bytes) (elf : Range) (index : Nat) : Nat := member mem (phdrAt mem elf index) pVaddr 8
def memszOf (mem : Bytes) (elf : Range) (index : Nat) : Nat := member mem (phdrAt mem elf index) pMemsz 8
def fileszOf (mem : Bytes) (elf : Range) (index : Nat) : Nat := member mem (phdrAt mem elf index) pFilesz 8
def offsetOf (mem : Bytes) (elf : Range) (index : Nat) : Nat := member mem (phdrAt mem elf index) pOffset 8

/-- An address a segment asks for. -/
def Claims (mem : Bytes) (elf : Range) (index virt : Nat) : Prop :=
  vaddrOf mem elf index ≤ virt ∧ virt < vaddrOf mem elf index + memszOf mem elf index

/-- A module as it should be: its headers and its data lie inside it, and its
segments lie apart, below the stack. -/
structure WellFormed (mem : Bytes) (elf : Range) : Prop where
  header : 64 ≤ elf.length
  stride : 56 ≤ member mem elf.base ePhentsize 2
  table : member mem elf.base ePhoff 8 + headerCount mem elf * member mem elf.base ePhentsize 2 ≤ elf.length
  data : ∀ index, IsSegment mem elf index → offsetOf mem elf index + fileszOf mem elf index ≤ elf.length
  size : ∀ index, IsSegment mem elf index → fileszOf mem elf index ≤ memszOf mem elf index
  below : ∀ index, IsSegment mem elf index → vaddrOf mem elf index + memszOf mem elf index ≤ userStackBase
  apart : ∀ index other virt, IsSegment mem elf index → IsSegment mem elf other → index ≠ other →
    Claims mem elf index virt → ¬ Claims mem elf other virt

/-- A byte of the file. -/
def fileByte (mem : Bytes) (elf : Range) (place : Nat) : BitVec 8 := mem (mmapIoToPhys elf.base + place)

/-- The process finds every segment where it asked for it. -/
structure Faithful (mem : Bytes) (elf : Range) (process : Process) (after : Bytes) : Prop where
  bytes : ∀ index, IsSegment mem elf index → ∀ offset < memszOf mem elf index,
    userByte after (vmmSwitchSpace process.pml) (vaddrOf mem elf index + offset) =
      some (if offset < fileszOf mem elf index then fileByte mem elf (offsetOf mem elf index + offset) else 0)
  entry : process.regs.rip = member mem elf.base eEntry 8

namespace WellFormed

variable {mem : Bytes} {vm : Vm} {elf : Range} {index : Nat}

theorem inside (formed : WellFormed vm.mem elf) (placed : Placed roots vm elf) (among : index < headerCount vm.mem elf)
    {offset count : Nat} (within : offset + count ≤ 56) (some : count ≠ 0) :
    Inside elf (wrap (phdrAt vm.mem elf index + offset)) count := by
  have low := placed.low
  have high := placed.high
  have table := formed.table
  have stride := formed.stride
  have rows := Nat.mul_le_mul_right (member vm.mem elf.base ePhentsize 2)
    (show index + 1 ≤ headerCount vm.mem elf from among)
  rw [Nat.succ_mul] at rows
  unfold phdrAt
  generalize index * member vm.mem elf.base ePhentsize 2 = row at rows ⊢
  generalize headerCount vm.mem elf * member vm.mem elf.base ePhentsize 2 = last at rows table
  simp only [Inside, wrap, mmapIoBase] at *
  omega

theorem address (formed : WellFormed vm.mem elf) (placed : Placed roots vm elf)
    (segment : IsSegment vm.mem elf index) (filled : fileszOf vm.mem elf index ≠ 0) :
    wrap (elf.base + offsetOf vm.mem elf index) =
      elf.base + offsetOf vm.mem elf index := by
  have high := placed.high
  have data := formed.data index segment
  exact wrap_of_lt (by omega)

theorem fits (formed : WellFormed vm.mem elf) (placed : Placed roots vm elf) : ModuleFits vm.mem elf := by
  have header := formed.header
  refine ⟨Nat.le_trans (by decide) header, fun index among =>
    ⟨formed.inside placed among (by decide) (by decide), fun load => ?_⟩⟩
  have segment : IsSegment vm.mem elf index := ⟨among, load⟩
  have below := formed.below index segment
  refine ⟨fun offset member => ?_, fun _ filled => ?_, formed.size index segment, ?_⟩
  · simp only [List.mem_cons, List.not_mem_nil, or_false] at member
    rcases member with rfl | rfl | rfl | rfl <;> exact formed.inside placed among (by decide) (by decide)
  · have data := formed.data index segment
    have address := formed.address placed segment filled
    unfold offsetOf fileszOf at data
    unfold offsetOf at address
    rw [address]
    exact ⟨Nat.le_add_right _ _, by omega⟩
  · unfold vaddrOf memszOf userStackBase at below
    rw [alignDown_page, alignUp_page _ (by omega), wrap_of_lt (by omega)]
    omega

theorem present (formed : WellFormed vm.mem elf) (placed : Placed roots vm elf) : DataPresent vm.mem elf := by
  intro index segment filled
  have address := formed.address placed segment filled
  have low := placed.low
  unfold offsetOf at address
  rw [address]
  simp only [mmapIoBase] at low
  omega

theorem byte (formed : WellFormed vm.mem elf) (placed : Placed roots vm elf)
    (segment : IsSegment vm.mem elf index) (offset : Nat) :
    segmentByte vm.mem elf (phdrAt vm.mem elf index) offset =
      if offset < fileszOf vm.mem elf index then fileByte vm.mem elf (offsetOf vm.mem elf index + offset) else 0 := by
  change (if offset < fileszOf vm.mem elf index then vm.mem
    (mmapIoToPhys (wrap (elf.base + offsetOf vm.mem elf index)) + offset) else 0) = _
  by_cases file : offset < fileszOf vm.mem elf index
  · have low := placed.low
    have high := placed.high
    have data := formed.data index segment
    rw [if_pos file, if_pos file, formed.address placed segment (Nat.ne_of_gt (Nat.zero_lt_of_lt file)), fileByte]
    refine congrArg vm.mem ?_
    unfold mmapIoToPhys
    simp only [wrapSub, wrap, mmapIoBase] at low ⊢
    omega
  · rw [if_neg file, if_neg file]

/-- A segment that begins with a page has no page that is not its own. -/
theorem claims_page (formed : WellFormed mem elf) (segment : IsSegment mem elf index)
    (aligned : vaddrOf mem elf index % 4096 = 0) {page : Nat}
    (here : SegmentPage mem (phdrAt mem elf index) page) : Claims mem elf index (page * 4096) := by
  have below := formed.below index segment
  unfold SegmentPage at here
  unfold Claims
  unfold vaddrOf memszOf userStackBase at *
  rw [alignDown_page, alignUp_page _ (by omega), wrap_of_lt (by omega)] at here
  omega

end WellFormed

/-- Where every segment begins with a page, the loaded process finds each byte of its
segments where the header puts it: first what the file holds, then zeros. -/
theorem load_faithful {kernel grown : Kernel} {elf : Range} {block bstack : HeapCall} {process : Process}
    (sound : Sane initial roots root kernel.vm) (homed : Homed roots kernel) (placed : Placed roots kernel.vm elf)
    (formed : WellFormed kernel.vm.mem elf) (aligned : ∀ index, IsSegment kernel.vm.mem elf index →
      vaddrOf kernel.vm.mem elf index % 4096 = 0)
    (ran : (loadElfModule kernel elf block bstack).outcome = .ok (process, grown)) :
    Faithful kernel.vm.mem elf process grown.vm.mem := by
  obtain ⟨fresh, loaded⟩ := loadElfModule_loaded sound homed placed (formed.fits placed) (formed.present placed) ran
  refine ⟨fun index segment offset inside => ?_, by rw [loaded.process]; rfl⟩
  have below := formed.below index segment
  have base := aligned index segment
  have address : imageAddress kernel.vm.mem (phdrAt kernel.vm.mem elf index) offset =
    vaddrOf kernel.vm.mem elf index + offset := by
    unfold imageAddress
    unfold vaddrOf memszOf userStackBase at *
    rw [alignDown_page, wrap_of_lt (by omega)]
    omega
  have here : Claims kernel.vm.mem elf index ((vaddrOf kernel.vm.mem elf index + offset) / 4096 * 4096) := by
    unfold Claims
    omega
  rw [loaded.switch, ← formed.byte placed segment, ← address]
  refine (loaded.image index segment offset inside ?_ ?_).byte
  · intro later behind _ other page
    rw [address] at page
    exact formed.apart index later _ segment other (Nat.ne_of_lt behind) here
      (formed.claims_page other (aligned later other) page)
  · rw [address]
    unfold StackPage
    unfold userStackBase at *
    omega

theorem loadSegment_returns {mem : Bytes} {heap pages : Nat} {vm : Vm} {elf : Range} {space phdr : Nat}
    (working : Working mem initial roots root heap pages vm) (placed : Placed roots vm elf) (isSpace : roots space)
    (other : space ≠ root) (fits : SegmentFits vm.mem elf phdr) {count rest : Nat} (some : 0 < count)
    (size : member vm.mem phdr pMemsz 8 = count * 4096) (small : count ≤ 2 ^ 30)
    (room : pages = count + (rest + 3 * leafTables (alignDown (member vm.mem phdr pVaddr 8) pageSize / 4096) count)) :
    ∃ after, (loadSegment elf (mmapPhysToIo space) phdr vm).outcome = .ok after ∧
      Working mem initial roots root heap rest after := by
  have up : alignUp (member vm.mem phdr pMemsz 8) pageSize = count * 4096 := by
    rw [size, alignUp_page _ (by omega)]
    omega
  obtain ⟨addr, given, allocated, length, -, -, stocked⟩ := working.alloc (.segment (mmapPhysToIo space)) room
    (show 0 < count * 4096 by omega) (Nat.le_refl _) (by omega)
  have positive : addr.length ≠ 0 := by omega
  have begun : Loading roots vm vm := ⟨working.spaces, .refl _ _⟩
  rw [← up] at allocated
  obtain ⟨loading, granted, same, enough, -⟩ := begun.granted working.ledger.small (member_lt _ _ _) allocated positive
  have half := fits.half
  rw [up, ← length] at half
  have base : alignDown (member vm.mem phdr pVaddr 8) pageSize % 4096 = 0 := by
    rw [alignDown_page]
    omega
  have pagesOf : addr.length / 4096 = count := by omega
  have address (index : Nat) (inside : index < addr.length / 4096) :
      wrap (index * pageSize + alignDown (member vm.mem phdr pVaddr 8) pageSize) =
        alignDown (member vm.mem phdr pVaddr 8) pageSize + index * 4096 := by
    generalize alignDown (member vm.mem phdr pVaddr 8) pageSize = first at half
    simp only [wrap, pageSize]
    omega
  have userPage (index : Nat) (inside : index < addr.length / pageSize) : UserHalf
    (segmentPage (member vm.mem phdr pVaddr 8) index) := by
    unfold segmentPage
    rw [address index inside]
    generalize alignDown (member vm.mem phdr pVaddr 8) pageSize = first at half
    unfold UserHalf
    simp only [pageSize] at inside
    omega
  obtain ⟨mapped, mapping, last⟩ := stocked.map isSpace other true _ base
    (show addr.length = Range.length ⟨member vm.mem phdr pVaddr 8, addr.length⟩ from rfl)
    (by dsimp only; rw [pagesOf, ← length]; exact half) address (by dsimp only; rw [pagesOf])
  obtain ⟨loading, grows⟩ := loading.mapped isSpace userPage mapping
  have frames := granted.grow grows
  obtain ⟨outside, -⟩ := frames.filled_spec placed loading.grows fits enough
  refine ⟨_, ?_, last.fill frames.reserved (fun page inside => ?_) fun place away =>
    outside place (mt frames.page.mpr away)⟩
  · simp only [loadSegment, Traced.outcome_bind, outcome_readMember, Traced.outcome_silent, mapSegment_outcome,
      copySegment_outcome, ok_bind, allocated, check_true _ positive]
    rw [same, mapping]
    rfl
  · by_contra low
    have held := (working.foreign (page * 4096) (by omega)).1.held
    rw [Nat.mul_div_cancel _ (by decide)] at held
    exact held (frames.was page inside)

theorem loadElfModule_returns {mem : Bytes} {heap pages base : Nat} {vm : Vm} {elf : Range}
    (working : Working mem initial roots root heap (pages + 12) vm) (sched : Sched) (low : base + elf.length ≤ 2 ^ 20)
    (place : elf.base = mmapPhysToIo base) (formed : WellFormed vm.mem elf) (one : headerCount vm.mem elf = 1)
    (segment : IsSegment vm.mem elf 0) (size : memszOf vm.mem elf 0 = 4096) {block bstack : Nat}
    (blockInside : block + processSize ≤ 2 ^ 18) (bstackInside : bstack + kernelStackSize ≤ 2 ^ 18) :
    ∃ process after, (loadElfModule ⟨sched, vm⟩ elf ⟨[], mmapPhysToIo (heap + block)⟩ ⟨[],
      mmapPhysToIo (heap + bstack)⟩).outcome =
      .ok (process, ⟨sched, after⟩) := by
  have ready : Loadable roots root vm elf := by
    have ready := working.loadable low
    rwa [← place] at ready
  have placed := ready.placed
  have fits := formed.fits placed
  obtain ⟨fresh, made, created, apart, -, working'⟩ :=
    Working.create (show Working mem initial roots root heap (pages + 11 + 1) vm from working)
  obtain ⟨fresh', pointer, grown, -, placed', -⟩ := ready.created created
  have spaces := working'.spaces
  obtain rfl : fresh' = fresh := by
    have io := phys_io fresh' (grown.spaces.aligned fresh' (.inr rfl)).2
    rw [← pointer, phys_io _ (spaces.aligned fresh (.inr rfl)).2] at io
    exact io.symm
  have kept := fits.same placed (formed.present placed) grown.grows
  -- the only round of the loop
  have fits' := fits.congr placed fun _ _ _ inside => placed.member_kept grown.grows inside
  have first : phdrAt made.mem elf 0 = phdrAt vm.mem elf 0 := kept.phdr 0
  have among := (kept.segment 0).mpr segment
  have memsz : member made.mem (phdrAt made.mem elf 0) pMemsz 8 = 1 * 4096 := by
    rw [first, kept.members 0 segment pMemsz (by decide)]
    exact size
  have leaf (page : Nat) : leafTables page 1 = 1 := by
    unfold leafTables
    rw [if_neg (by decide)]
    omega
  obtain ⟨loaded, turn, last⟩ :=
    loadSegment_returns working' placed' (.inr rfl) apart ((fits'.segments 0 among.1).2 among.2)
    (by decide) memsz (by decide) (show pages + 11 = 1 + (pages + 7 + 3 * leafTables _ 1) by rw [leaf]; omega)
  have start : wrap (elf.base + member vm.mem elf.base ePhoff 8) = phdrAt vm.mem elf 0 := by simp [phdrAt]
  -- one header, before the loop and after its round
  have count {roots : Nat → Prop} {pages : Nat} {vm : Vm} (working : Working mem initial roots root heap pages vm) :
      member vm.mem elf.base ePhnum 2 = mem.read (base + ePhnum) 2 := by
    have header := formed.header
    rw [place]
    exact working.member (by simp only [ePhnum]; omega)
  have loop : (loadSegments elf (mmapPhysToIo fresh') (2 ^ 16) (phdrAt made.mem elf 0) made).outcome = .ok loaded := by
    change (loadSegments _ _ (65534 + 1 + 1) _ _).outcome = _
    unfold headerCount at one
    rw [count working] at one
    rw [loadSegments_succ, Traced.outcome_bind, outcome_readMember, ok_bind, count working', one, if_pos (by decide),
      Traced.outcome_bind, outcome_readMember, ok_bind, among.2, Traced.outcome_bind, loadHeader, if_pos rfl,
      turn, ok_bind, Traced.outcome_bind, outcome_readMember, ok_bind, loadSegments_succ, Traced.outcome_bind,
      outcome_readMember, ok_bind, count last, one, if_neg (by decide)]
    rfl
  obtain ⟨stack, after, task, -⟩ :=
    last.taskInit sched (.inr rfl) apart (member loaded.mem elf.base eEntry 8) blockInside bstackInside
  refine ⟨newTask (mmapPhysToIo fresh') (member loaded.mem elf.base eEntry 8)
    (mmapPhysToIo (heap + bstack)) stack, after, ?_⟩
  unfold loadElfModule
  rw [Traced.outcome_bind, outcome_readMember, ok_bind, Traced.outcome_bind, Traced.outcome_silent, created, ok_bind]
  dsimp only
  rw [start, ← first, Traced.outcome_bind, loop, ok_bind, Traced.outcome_bind, outcome_readMember, ok_bind,
    Traced.outcome_silent, task]

/-- A module of one page in low memory. -/
def pageModule : Range := ⟨mmapPhysToIo 0x10000, 4096⟩

/-- Its one header asks for a page at `vaddr` and brings four bytes. -/
structure OneSegment (mem : Bytes) (vaddr : Nat) : Prop where
  phoff : mem.read (0x10000 + ePhoff) 8 = 64
  phentsize : mem.read (0x10000 + ePhentsize) 2 = 56
  phnum : mem.read (0x10000 + ePhnum) 2 = 1
  type : mem.read (0x10040 + pType) 4 = ptLoad
  offset : mem.read (0x10040 + pOffset) 8 = 0
  vaddr : mem.read (0x10040 + pVaddr) 8 = vaddr
  filesz : mem.read (0x10040 + pFilesz) 8 = 4
  memsz : mem.read (0x10040 + pMemsz) 8 = 4096

structure OneFormed (mem : Bytes) (vaddr : Nat) : Prop where
  formed : WellFormed mem pageModule
  one : headerCount mem pageModule = 1
  segment : IsSegment mem pageModule 0
  vaddr : vaddrOf mem pageModule 0 = vaddr
  memsz : memszOf mem pageModule 0 = 4096

theorem OneSegment.formed {mem : Bytes} {vaddr heap pages : Nat} {vm : Vm} (header : OneSegment mem vaddr)
    (working : Working mem initial roots root heap pages vm) (below : vaddr + 4096 ≤ userStackBase) :
    OneFormed vm.mem vaddr := by
  have file {offset count : Nat} (inside : offset + count ≤ 2 ^ 16) :
      member vm.mem pageModule.base offset count = mem.read (0x10000 + offset) count := working.member (by omega)
  have phdr : phdrAt vm.mem pageModule 0 = mmapPhysToIo 0x10040 := by
    unfold phdrAt
    rw [file (by decide), header.phoff]
    unfold pageModule mmapPhysToIo
    simp only [wrap]
    omega
  have row {offset count : Nat} (inside : offset + count ≤ 2 ^ 16) :
      member vm.mem (phdrAt vm.mem pageModule 0) offset count = mem.read (0x10040 + offset) count := by
    rw [phdr]
    exact working.member (by omega)
  have one : headerCount vm.mem pageModule = 1 := (file (by decide)).trans header.phnum
  have first {index : Nat} (segment : IsSegment vm.mem pageModule index) : index = 0 := by
    have among : index < headerCount vm.mem pageModule := segment.1
    omega
  have segment : IsSegment vm.mem pageModule 0 :=
    ⟨by unfold headerCount at one; omega, (row (by decide)).trans header.type⟩
  have vaddr' : vaddrOf vm.mem pageModule 0 = vaddr := (row (by decide)).trans header.vaddr
  have memsz : memszOf vm.mem pageModule 0 = 4096 := (row (by decide)).trans header.memsz
  have filesz : fileszOf vm.mem pageModule 0 = 4 := (row (by decide)).trans header.filesz
  have offset : offsetOf vm.mem pageModule 0 = 0 := (row (by decide)).trans header.offset
  refine ⟨⟨by decide, ?_, ?_, ?_, ?_, ?_, ?_⟩, one, segment, vaddr', memsz⟩
  · rw [file (by decide), header.phentsize]
  · rw [one, file (by decide), file (by decide), header.phentsize, header.phoff]
    decide
  · intro index among
    obtain rfl := first among
    rw [offset, filesz]
    decide
  · intro index among
    obtain rfl := first among
    rw [filesz, memsz]
    decide
  · intro index among
    obtain rfl := first among
    rw [vaddr', memsz]
    exact below
  · intro index other virt among among' differ
    exact absurd ((first among).trans (first among').symm) differ

/-- The load of such a module on a machine that just came up. -/
structure PageLoad (vaddr : Nat) (initial : Pmm) (root : Nat) (kernel : Kernel) (block bstack : HeapCall)
    (process : Process) (grown : Kernel) : Prop where
  boots : ∀ meets, System.Run meets ⟨kernel, [], 0, [], []⟩
  started : Started initial root ⟨kernel, [], 0, [], []⟩
  placed : Placed (· = root) kernel.vm pageModule
  formed : OneFormed kernel.vm.mem vaddr
  present : bstack.pointer ≠ 0
  ran : (loadElfModule kernel pageModule block bstack).outcome = .ok (process, grown)

theorem gigabyte_loads {mem : Bytes} {vaddr : Nat} (header : OneSegment mem vaddr)
    (below : vaddr + 4096 ≤ userStackBase) :
    ∃ initial root kernel block bstack process grown,
      PageLoad vaddr initial root kernel block bstack process grown := by
  obtain ⟨initial, heap, root, vm, sched, boots, -, working⟩ := gigabyte_boots mem
  have fits : gigabyte.Fits := by
    constructor <;> simp [gigabyte]
  obtain ⟨initial', root', started⟩ := boot_took fits boots
  have sound := started.sound
  obtain rfl : root' = root :=
    sound.own.unique working.own (sound.spaces.aligned root' rfl).2 (working.spaces.aligned root rfl).2
  have formed := header.formed working below
  obtain ⟨process, after, ran⟩ :=
    loadElfModule_returns (show Working mem initial _ _ heap (19988 + 12) vm from working) sched
    (show 0x10000 + pageModule.length ≤ 2 ^ 20 by decide) rfl formed.formed formed.one formed.segment formed.memsz
    (show 0xe000 + processSize ≤ 2 ^ 18 by decide) (show 0x10000 + kernelStackSize ≤ 2 ^ 18 by decide)
  have low := working.below
  refine ⟨initial', root', _, _, _, process, _, fun meets => .boot fits boots, started,
    (working.loadable (by decide)).placed, formed, ?_, ran⟩
  unfold mmapPhysToIo
  simp only [wrap, mmapIoBase]
  omega

/-- The bytes of such a module: the members that are not zero. -/
def oneSegment (vaddr : Nat) : Bytes :=
  let members := [(0x10000 + ePhoff, 8, 64), (0x10000 + ePhentsize, 2, 56), (0x10000 + ePhnum, 2, 1),
    (0x10040 + pType, 4, ptLoad), (0x10040 + pVaddr, 8, vaddr), (0x10040 + pFilesz, 8, 4), (0x10040 + pMemsz, 8, 4096)]
  members.foldl (fun bytes field => Bytes.write bytes field.1 field.2.1 field.2.2) fun _ => 0

theorem oneSegment_formed : OneSegment (oneSegment 0x400000) 0x400000 := by
  constructor <;> decide

theorem load_safe_iff_page : ∃ roots root kernel block bstack, Loadable roots root kernel.vm pageModule ∧
    IsSegment kernel.vm.mem pageModule 0 ∧
      (∃ result, (loadElfModule kernel pageModule block bstack).outcome = .ok result) ∧
    Traced.Only (Access.Safe pageModule) (loadElfModule kernel pageModule block bstack) := by
  obtain ⟨initial, root, kernel, block, bstack, process, grown, load⟩ := gigabyte_loads oneSegment_formed (by decide)
  have sound := load.started.sound
  have ready : Loadable (· = root) root kernel.vm pageModule :=
    ⟨sound.spaces, sound.isRoot, sound.own, load.placed, sound.ledger.small⟩
  have safe := ((load_safe_iff ready).2 _ load.ran).mpr (load.formed.formed.fits load.placed)
  exact ⟨_, root, kernel, block, bstack, ready, load.formed.segment, ⟨_, load.ran⟩, safe⟩

theorem load_faithful_aligned : ∃ kernel block bstack process grown,
    (loadElfModule kernel pageModule block bstack).outcome = .ok (process, grown) ∧
      Faithful kernel.vm.mem pageModule process grown.vm.mem := by
  obtain ⟨initial, root, kernel, block, bstack, process, grown, load⟩ := gigabyte_loads oneSegment_formed (by decide)
  have formed := load.formed
  refine ⟨kernel, block, bstack, process, grown, load.ran,
    load_faithful load.started.sound load.started.homed load.placed formed.formed (fun index segment => ?_) load.ran⟩
  have among : index < headerCount kernel.vm.mem pageModule := segment.1
  obtain rfl : index = 0 := by
    have one := formed.one
    omega
  rw [formed.vaddr]

/-- A segment that begins in the middle of a page has no second half. -/
theorem load_misplaced : ∃ initial root kernel block bstack process grown, Sane initial (· = root) root kernel.vm ∧
    Homed (· = root) kernel ∧ Placed (· = root) kernel.vm pageModule ∧ WellFormed kernel.vm.mem pageModule ∧
    (loadElfModule kernel pageModule block bstack).outcome = .ok (process, grown) ∧
    ¬ Faithful kernel.vm.mem pageModule process grown.vm.mem := by
  have header : OneSegment (oneSegment 0x400800) 0x400800 := by
    constructor <;> decide
  obtain ⟨initial, root, kernel, block, bstack, process, grown, -, started, placed, formed, -, ran⟩ :=
    gigabyte_loads header (by decide)
  have sound := started.sound
  have homed := started.homed
  dsimp only at sound homed
  refine ⟨initial, root, kernel, block, bstack, process, grown, sound, homed, placed, formed.formed, ran,
    fun faithful => ?_⟩
  obtain ⟨fresh, loaded⟩ := loadElfModule_loaded sound homed placed (formed.formed.fits placed)
    (formed.formed.present placed) ran
  have shown := faithful.bytes 0 formed.segment 0x800 (by rw [formed.memsz]; decide)
  have vaddr := formed.vaddr
  have memsz := formed.memsz
  rw [loaded.switch, vaddr] at shown
  have outside : ¬ ImagePage kernel.vm.mem pageModule (headerCount kernel.vm.mem pageModule)
    ((0x400800 + 0x800) / 4096) := by
    intro covered
    obtain ⟨index, among, -, -, high⟩ := covered
    obtain rfl : index = 0 := by
      have one := formed.one
      omega
    unfold vaddrOf at vaddr
    unfold memszOf at memsz
    rw [vaddr, memsz] at high
    exact absurd high (by decide)
  rw [userByte, userAddress, loaded.empty _ (by unfold UserHalf; decide) outside (by unfold StackPage; decide)] at shown
  cases shown

end Navy
