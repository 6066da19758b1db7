import Navy.Stivale2
import Navy.Proofs.Strings

/-! How far the parser of the boot loader's tags writes. Nothing bounds the two
counters or the length of a name, so what fits is a matter of what is sent. -/

namespace Navy
open Outcome

def Stivale2Tag.entriesOf : Stivale2Tag → List Stivale2MmapEntry
  | .memmap entries => entries
  | _ => []

def Stivale2Tag.modulesOf : Stivale2Tag → List Stivale2Module
  | .modules mods => mods
  | _ => []

/-- All the entries and all the modules of a list of tags, in the order they come. -/
def entriesOf (tags : List Stivale2Tag) : List Stivale2MmapEntry := tags.flatMap Stivale2Tag.entriesOf
def modulesOf (tags : List Stivale2Tag) : List Stivale2Module := tags.flatMap Stivale2Tag.modulesOf

/-- The name ends before it overruns `module.name`: a terminator is in the string,
or right behind it. -/
def NameFits (stack : Stack) (m : Stivale2Module) : Prop :=
  ∃ place ≤ moduleNameSize, (m.string ++ stack.beyond)[place]? = some 0

/-- What one round of `parse_module` leaves in the handover. -/
structure Stored (stack : Stack) (m : Stivale2Module) (entry : HandoverModule) : Prop where
  addr : entry.addr = ⟨m.begin, wrapSub m.end' m.begin⟩
  size : entry.name.length = moduleNameSize
  name : ∀ length, strlen (m.string ++ stack.beyond) = .ok length →
    entry.name = (m.string ++ stack.beyond).take length ++ (List.replicate 64 0 ++ stack.name.drop 64).drop length

variable {stack : Nat → Stack}

theorem nameFits_iff {stack : Stack} {m : Stivale2Module} :
    NameFits stack m ↔ ∃ length ≤ moduleNameSize, strlen (m.string ++ stack.beyond) = .ok length := by
  constructor
  · intro fits
    obtain ⟨place, short, terminator⟩ := fits
    obtain ⟨length, before, scanned⟩ := strlen_terminator terminator
    exact ⟨length, before.trans short, scanned⟩
  · intro fits
    obtain ⟨length, short, scanned⟩ := fits
    exact ⟨length, short, strlen_found scanned⟩

theorem parseModuleEntry_stores {handover : Handover} {m : Stivale2Module}
    (room : handover.modules.length < handoverModules) (fits : NameFits (stack handover.modules.length) m) :
    ∃ entry, parseModuleEntry stack handover m = .ok { handover with modules := handover.modules ++ [entry] } ∧
      Stored (stack handover.modules.length) m entry := by
  obtain ⟨length, short, scanned⟩ := nameFits_iff.mp fits
  have within := strlen_le scanned
  have size := (stack handover.modules.length).size
  unfold parseModuleEntry
  dsimp only
  rw [scanned, ok_bind, check_true _ short, ok_bind, check_true _ room, ok_bind]
  refine ⟨_, rfl, rfl, ?_, fun other found => ?_⟩
  · simp only [moduleNameSize, List.length_append, List.length_take, List.length_drop, List.length_replicate] at *
    omega
  · rw [scanned] at found
    obtain rfl := Except.ok.inj found
    rfl

theorem parseModuleEntry_overruns {handover : Handover} {m : Stivale2Module}
    (excess : ¬ (handover.modules.length < handoverModules ∧ NameFits (stack handover.modules.length) m)) :
    parseModuleEntry stack handover m = .error .outOfBounds := by
  unfold parseModuleEntry
  dsimp only
  cases scanned : strlen (m.string ++ (stack handover.modules.length).beyond) with
  | error fault =>
    obtain rfl := strlen_fails scanned
    rfl
  | ok length =>
    rw [ok_bind]
    by_cases short : length ≤ moduleNameSize
    · rw [check_true _ short, ok_bind, check, if_neg fun room =>
        excess ⟨room, nameFits_iff.mpr ⟨length, short, scanned⟩⟩]
      rfl
    · rw [check, if_neg short]
      rfl

/-- The rounds of a list of modules, the first of which is the `count`-th. -/
def NamesFit (stack : Nat → Stack) : Nat → List Stivale2Module → Prop
  | _, [] => True
  | count, m :: rest => NameFits (stack count) m ∧ NamesFit stack (count + 1) rest

def Stores (stack : Nat → Stack) : Nat → List Stivale2Module → List HandoverModule → Prop
  | _, [], entries => entries = []
  | count, m :: rest, entries =>
    ∃ entry more, entries = entry :: more ∧ Stored (stack count) m entry ∧ Stores stack (count + 1) rest more

theorem NamesFit.append {count : Nat} {first second : List Stivale2Module} :
    NamesFit stack count (first ++ second) ↔ NamesFit stack count first ∧ NamesFit stack
      (count + first.length) second := by
  induction first generalizing count with
  | nil => simp [NamesFit]
  | cons m rest ih =>
    simp only [List.cons_append, NamesFit, ih, List.length_cons, and_assoc]
    rw [show count + 1 + rest.length = count + (rest.length + 1) by omega]

theorem Stores.append {count : Nat} {first second : List Stivale2Module} {entries more : List HandoverModule}
    (early : Stores stack count first entries) (late : Stores stack (count + first.length) second more) :
    Stores stack count (first ++ second) (entries ++ more) := by
  induction first generalizing count entries with
  | nil =>
    obtain rfl := early
    exact late
  | cons m rest ih =>
    obtain ⟨entry, entries, rfl, stored, others⟩ := early
    refine ⟨entry, entries ++ more, rfl, stored, ih others ?_⟩
    rwa [show count + 1 + rest.length = count + (m :: rest).length by rw [List.length_cons]; omega]

theorem Stores.length {count : Nat} {mods : List Stivale2Module} {entries : List HandoverModule}
    (stores : Stores stack count mods entries) : entries.length = mods.length := by
  induction mods generalizing count entries with
  | nil =>
    obtain rfl := stores
    rfl
  | cons m rest ih =>
    obtain ⟨entry, more, rfl, -, others⟩ := stores
    rw [List.length_cons, List.length_cons, ih others]

theorem parseModule_stores {handover : Handover} {mods : List Stivale2Module}
    (room : handover.modules.length + mods.length ≤ handoverModules)
    (fits : NamesFit stack handover.modules.length mods) :
    ∃ entries, parseModule stack handover mods = .ok { handover with modules := handover.modules ++ entries } ∧
      Stores stack handover.modules.length mods entries := by
  induction mods generalizing handover with
  | nil => exact ⟨[], by rw [List.append_nil]; rfl, rfl⟩
  | cons m rest ih =>
    rw [List.length_cons] at room
    obtain ⟨entry, ran, stored⟩ :=
      parseModuleEntry_stores (show handover.modules.length < handoverModules by omega) fits.1
    have count : (handover.modules ++ [entry]).length = handover.modules.length + 1 := by simp
    obtain ⟨entries, others, stores⟩ := @ih { handover with modules := handover.modules ++ [entry] }
      (by dsimp only; omega) (by dsimp only; rw [count]; exact fits.2)
    dsimp only at stores
    rw [count] at stores
    refine ⟨entry :: entries, ?_, entry, entries, rfl, stored, stores⟩
    unfold parseModule at others ⊢
    rw [List.foldlM_cons, ran, ok_bind, others, List.append_assoc]
    rfl

theorem parseModule_overruns {handover : Handover} {mods : List Stivale2Module}
    (start : handover.modules.length ≤ handoverModules)
    (excess : ¬ (handover.modules.length + mods.length ≤ handoverModules ∧
      NamesFit stack handover.modules.length mods)) :
    parseModule stack handover mods = .error .outOfBounds := by
  induction mods generalizing handover with
  | nil => exact absurd ⟨start, trivial⟩ excess
  | cons m rest ih =>
    unfold parseModule
    rw [List.foldlM_cons]
    by_cases here : handover.modules.length < handoverModules ∧ NameFits (stack handover.modules.length) m
    · obtain ⟨entry, ran, -⟩ := parseModuleEntry_stores here.1 here.2
      have count : (handover.modules ++ [entry]).length = handover.modules.length + 1 := by simp
      rw [ran, ok_bind]
      refine ih (by dsimp only; omega) fun both => excess ?_
      dsimp only at both
      rw [count] at both
      exact ⟨by rw [List.length_cons]; omega, here.2, both.2⟩
    · rw [parseModuleEntry_overruns here]
      rfl

theorem parseMmapEntry_fits {this : Handover} (entry : Stivale2MmapEntry)
    (room : this.mmap.length < limitMemoryMapSize) :
    ∃ after, parseMmapEntry this entry = .ok after ∧ after.mmap.length = this.mmap.length + 1 ∧ after.modules =
      this.modules := by
  unfold parseMmapEntry
  rw [check_true _ room, ok_bind]
  exact ⟨_, rfl, by simp, rfl⟩

theorem parseMmap_fits {this : Handover} {memmap : List Stivale2MmapEntry}
    (room : this.mmap.length + memmap.length ≤ limitMemoryMapSize) :
    ∃ after, parseMmap this memmap = .ok after ∧ after.mmap.length = this.mmap.length + memmap.length ∧
      after.modules = this.modules := by
  have loop : ∃ after, memmap.foldlM parseMmapEntry this = .ok after ∧
      after.mmap.length = this.mmap.length + memmap.length ∧ after.modules = this.modules := by
    induction memmap generalizing this with
    | nil => exact ⟨this, rfl, rfl, rfl⟩
    | cons entry rest ih =>
      rw [List.length_cons] at room
      obtain ⟨next, first, count, same⟩ :=
        parseMmapEntry_fits entry (show this.mmap.length < limitMemoryMapSize by omega)
      obtain ⟨after, others, total, kept⟩ := @ih next (by omega)
      refine ⟨after, ?_, by rw [List.length_cons]; omega, kept.trans same⟩
      rw [List.foldlM_cons, first, ok_bind, others]
  obtain ⟨after, ran, count, same⟩ := loop
  unfold parseMmap
  rw [ran, ok_bind]
  exact ⟨_, rfl, count, same⟩

theorem parseMmap_overruns {this : Handover} {memmap : List Stivale2MmapEntry}
    (start : this.mmap.length ≤ limitMemoryMapSize)
    (excess : limitMemoryMapSize < this.mmap.length + memmap.length) :
    parseMmap this memmap = .error .outOfBounds := by
  have loop : memmap.foldlM parseMmapEntry this = .error .outOfBounds := by
    induction memmap generalizing this with
    | nil => exact absurd excess (Nat.not_lt.mpr start)
    | cons entry rest ih =>
      rw [List.foldlM_cons]
      by_cases room : this.mmap.length < limitMemoryMapSize
      · obtain ⟨next, first, count, -⟩ := parseMmapEntry_fits entry room
        rw [List.length_cons] at excess
        rw [first, ok_bind, @ih next (by omega) (by omega)]
      · unfold parseMmapEntry
        rw [check, if_neg room]
        rfl
  unfold parseMmap
  rw [loop]
  rfl

/-- What the tags carry fits, counted on from what `handover` holds already. -/
structure TagsFit (stack : Nat → Stack) (handover : Handover) (tags : List Stivale2Tag) : Prop where
  entries : handover.mmap.length + (entriesOf tags).length ≤ limitMemoryMapSize
  modules : handover.modules.length + (modulesOf tags).length ≤ handoverModules
  names : NamesFit stack handover.modules.length (modulesOf tags)

/-- The result of one tag, for tags that fit. -/
structure Parsed (stack : Nat → Stack) (handover : Handover) (entries : List Stivale2MmapEntry)
    (mods : List Stivale2Module) (after : Handover) : Prop where
  count : after.mmap.length = handover.mmap.length + entries.length
  modules : ∃ more, after.modules = handover.modules ++ more ∧ Stores stack handover.modules.length mods more

theorem parseTag_fits {handover : Handover} {tag : Stivale2Tag}
    (entries : handover.mmap.length + tag.entriesOf.length ≤ limitMemoryMapSize)
    (modules : handover.modules.length + tag.modulesOf.length ≤ handoverModules)
    (names : NamesFit stack handover.modules.length tag.modulesOf) :
    ∃ after, parseTag stack handover tag = .ok after ∧ Parsed stack handover tag.entriesOf tag.modulesOf after := by
  have plain (after : Handover) (mmap : after.mmap = handover.mmap) (same : after.modules = handover.modules) :
      Parsed stack handover [] [] after := ⟨by rw [mmap]; rfl, [], by rw [same, List.append_nil], rfl⟩
  cases tag with
  | memmap memmap =>
    obtain ⟨after, ran, count, same⟩ := parseMmap_fits entries
    exact ⟨after, ran, count, [], by rw [same, List.append_nil], rfl⟩
  | modules mods =>
    obtain ⟨more, ran, stores⟩ := parseModule_stores modules names
    exact ⟨_, ran, rfl, more, rfl, stores⟩
  | smp => exact ⟨_, rfl, plain _ rfl rfl⟩
  | rsdp rsdt => exact ⟨_, rfl, plain _ rfl rfl⟩
  | framebuffer framebuffer => exact ⟨_, rfl, plain _ rfl rfl⟩
  | unknown identifier => exact ⟨_, rfl, plain _ rfl rfl⟩

theorem parseTag_overruns {handover : Handover} {tag : Stivale2Tag} (start : handover.mmap.length ≤ limitMemoryMapSize)
    (start' : handover.modules.length ≤ handoverModules)
    (excess : ¬ (handover.mmap.length + tag.entriesOf.length ≤ limitMemoryMapSize ∧
      handover.modules.length + tag.modulesOf.length ≤ handoverModules ∧
        NamesFit stack handover.modules.length tag.modulesOf)) :
    parseTag stack handover tag = .error .outOfBounds := by
  cases tag with
  | memmap memmap => exact parseMmap_overruns start (Nat.lt_of_not_le fun entries => excess ⟨entries, start', trivial⟩)
  | modules mods => exact parseModule_overruns start' fun both => excess ⟨start, both⟩
  | smp => exact absurd ⟨start, start', trivial⟩ excess
  | rsdp rsdt => exact absurd ⟨start, start', trivial⟩ excess
  | framebuffer framebuffer => exact absurd ⟨start, start', trivial⟩ excess
  | unknown identifier => exact absurd ⟨start, start', trivial⟩ excess

theorem parseTags_fit {handover : Handover} {tags : List Stivale2Tag} (fits : TagsFit stack handover tags) :
    ∃ after, tags.foldlM (parseTag stack) handover = .ok after ∧
      Parsed stack handover (entriesOf tags) (modulesOf tags) after := by
  induction tags generalizing handover with
  | nil => exact ⟨handover, rfl, rfl, [], by rw [List.append_nil], rfl⟩
  | cons tag rest ih =>
    obtain ⟨entries, modules, names⟩ := fits
    simp only [entriesOf, modulesOf, List.flatMap_cons, List.length_append] at entries modules names ⊢
    rw [NamesFit.append] at names
    obtain ⟨next, first, count, more, same, stores⟩ := @parseTag_fits stack handover tag
      (by omega) (by omega) names.1
    have size : next.modules.length = handover.modules.length + tag.modulesOf.length := by
      rw [same, List.length_append, stores.length]
    obtain ⟨after, others, total, late, kept, rest'⟩ := @ih next
      ⟨by unfold entriesOf; omega, by unfold modulesOf; omega, by rw [size]; exact names.2⟩
    refine ⟨after, ?_, by rw [total, count, List.length_append]; unfold entriesOf; omega, more ++ late, ?_, ?_⟩
    · rw [List.foldlM_cons, first, ok_bind, others]
    · rw [kept, same, List.append_assoc]
    · rw [size] at rest'
      exact stores.append rest'

theorem parseTags_overrun {handover : Handover} {tags : List Stivale2Tag}
    (start : handover.mmap.length ≤ limitMemoryMapSize) (start' : handover.modules.length ≤ handoverModules)
    (excess : ¬ TagsFit stack handover tags) :
    tags.foldlM (parseTag stack) handover = .error .outOfBounds := by
  induction tags generalizing handover with
  | nil => exact absurd ⟨start, start', trivial⟩ excess
  | cons tag rest ih =>
    rw [List.foldlM_cons]
    by_cases here : handover.mmap.length + tag.entriesOf.length ≤ limitMemoryMapSize ∧
        handover.modules.length + tag.modulesOf.length ≤ handoverModules ∧
          NamesFit stack handover.modules.length tag.modulesOf
    · obtain ⟨entries, modules, names⟩ := here
      obtain ⟨next, first, count, more, same, stores⟩ := parseTag_fits entries modules names
      have size : next.modules.length = handover.modules.length + tag.modulesOf.length := by
        rw [same, List.length_append, stores.length]
      rw [first, ok_bind]
      refine @ih next (by omega) (by omega) fun rest' => excess ?_
      obtain ⟨entries', modules', names'⟩ := rest'
      rw [size] at modules' names'
      refine ⟨?_, ?_, ?_⟩
      · rw [entriesOf, List.flatMap_cons, List.length_append]
        unfold entriesOf at entries'
        omega
      · rw [modulesOf, List.flatMap_cons, List.length_append]
        unfold modulesOf at modules'
        omega
      · rw [modulesOf, List.flatMap_cons, NamesFit.append]
        exact ⟨names, names'⟩
    · rw [parseTag_overruns start start' here]
      rfl

theorem namesFit_iff {count : Nat} {mods : List Stivale2Module} :
    NamesFit stack count mods ↔ ∀ i m, mods[i]? = some m → NameFits (stack (count + i)) m := by
  induction mods generalizing count with
  | nil => simp [NamesFit]
  | cons m rest ih =>
    simp only [NamesFit, ih]
    constructor
    · intro both i other found
      cases i with
      | zero =>
        obtain rfl := Option.some.inj found
        exact both.1
      | succ i =>
        rw [show count + (i + 1) = count + 1 + i by omega]
        exact both.2 i other (by simpa using found)
    · intro all
      refine ⟨all 0 m rfl, fun i other found => ?_⟩
      rw [show count + 1 + i = count + (i + 1) by omega]
      exact all (i + 1) other (by simpa using found)

theorem Stores.sizes {count : Nat} {mods : List Stivale2Module} {entries : List HandoverModule}
    (stores : Stores stack count mods entries) : ∀ entry ∈ entries, entry.name.length = moduleNameSize := by
  induction mods generalizing count entries with
  | nil =>
    obtain rfl := stores
    exact fun _ member => by cases member
  | cons m rest ih =>
    obtain ⟨entry, more, rfl, stored, others⟩ := stores
    exact List.forall_mem_cons.mpr ⟨stored.size, ih others⟩

/-- The handover the parser begins with. -/
abbrev noHandover : Handover := ⟨0, 0, 0, ⟨0, 0, 0, 0⟩, [], []⟩

theorem tagsFit_iff {tags : List Stivale2Tag} : TagsFit stack noHandover tags ↔
    (entriesOf tags).length ≤ limitMemoryMapSize ∧ (modulesOf tags).length ≤ handoverModules ∧
      ∀ i m, (modulesOf tags)[i]? = some m → NameFits (stack i) m := by
  have names : NamesFit stack 0 (modulesOf tags) ↔ ∀ i m, (modulesOf tags)[i]? = some m → NameFits (stack i) m := by
    simpa only [Nat.zero_add] using @namesFit_iff stack 0 (modulesOf tags)
  rw [← names]
  constructor
  · intro fits
    exact ⟨by simpa using fits.entries, by simpa using fits.modules, fits.names⟩
  · intro fits
    exact ⟨by simpa using fits.1, by simpa using fits.2.1, fits.2.2⟩

/-- The parser stays inside its arrays exactly when the boot loader sends no more
entries, modules and characters than they hold. Then the counters do too. -/
theorem parse_bounds (stack : Nat → Stack) (tags : List Stivale2Tag) :
    (stivale2ParseHeader stack tags ≠ .error .outOfBounds ↔
      (entriesOf tags).length ≤ limitMemoryMapSize ∧ (modulesOf tags).length ≤ handoverModules ∧
        ∀ i m, (modulesOf tags)[i]? = some m → NameFits (stack i) m) ∧
    ∀ handover, stivale2ParseHeader stack tags = .ok handover →
      handover.mmap.length ≤ limitMemoryMapSize ∧ handover.modules.length ≤ handoverModules ∧
        ∀ entry ∈ handover.modules, entry.name.length = moduleNameSize := by
  rw [← tagsFit_iff]
  by_cases fits : TagsFit stack noHandover tags
  · obtain ⟨after, ran, count, more, same, stores⟩ := parseTags_fit fits
    unfold stivale2ParseHeader
    rw [ran]
    refine ⟨⟨fun _ => fits, fun _ stopped => by cases stopped⟩, fun handover found => ?_⟩
    obtain rfl := Except.ok.inj found
    have entries := fits.entries
    have modules := fits.modules
    rw [List.nil_append] at same
    refine ⟨count ▸ entries, ?_, ?_⟩
    · rw [same, stores.length]
      simpa using modules
    · rw [same]
      exact stores.sizes
  · have ran := parseTags_overrun (Nat.zero_le _) (Nat.zero_le _) fits
    unfold stivale2ParseHeader
    rw [ran]
    exact ⟨⟨fun other => absurd rfl other, fun other => absurd other fits⟩, fun handover found => by cases found⟩

theorem parse_overrun : stivale2ParseHeader (fun _ => ⟨List.replicate 128 0, [], rfl⟩)
    [.memmap (List.replicate 65 ⟨0x100000, 0x1000, stivale2MmapUsable⟩)] = .error .outOfBounds := by
  refine parseTags_overrun (Nat.zero_le _) (Nat.zero_le _) fun fits => ?_
  have entries := fits.entries
  simp [entriesOf, Stivale2Tag.entriesOf, limitMemoryMapSize] at entries

end Navy
