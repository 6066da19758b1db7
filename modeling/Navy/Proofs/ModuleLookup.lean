import Navy.Proofs.HandoverParsing

/-! Modules found again under the names the boot loader gave them. A name is
stored without its terminator over a half cleared buffer, and compared by length
first. -/

namespace Navy
open Outcome

namespace Stivale2Module

def text (m : Stivale2Module) : List (BitVec 8) := textOf m.string
def range (m : Stivale2Module) : Range := ⟨m.begin, m.end' - m.begin⟩

/-- A module as the boot loader may send it. -/
structure Named (m : Stivale2Module) : Prop where
  terminated : 0 ∈ m.string
  ordered : m.begin ≤ m.end'
  word : m.end' < 2 ^ 64

end Stivale2Module

/-- What a lookup is for: the range of the first module of that name. -/
def lookup (mods : List Stivale2Module) (name : List (BitVec 8)) : Range :=
  match mods.find? fun m => m.text = name with
  | some m => m.range
  | none => ⟨0, 0⟩

/-- The modules a lookup comes to, up to the first one it takes for the right one,
have short names, and that one is right. -/
def Findable (mods : List Stivale2Module) (name : List (BitVec 8)) : Prop :=
  ∀ before m after, mods = before ++ m :: after → (∀ other ∈ before, ¬ Alike name other.text) →
    m.text.length < 64 ∧ (Alike name m.text → m.text = name ∨ m.range = ⟨0, 0⟩)

variable {stack : Nat → Stack} {m : Stivale2Module} {mods : List Stivale2Module} {entry : HandoverModule}
  {name : List (BitVec 8)}

theorem findable_cons : Findable (m :: mods) name ↔
    m.text.length < 64 ∧ (Alike name m.text → m.text = name ∨ m.range = ⟨0, 0⟩) ∧
      (¬ Alike name m.text → Findable mods name) := by
  constructor
  · intro findable
    obtain ⟨short, right⟩ := findable [] m mods rfl (by simp)
    refine ⟨short, right, fun unlike before other after split earlier => ?_⟩
    exact findable (m :: before) other after (by rw [split]; rfl) (List.forall_mem_cons.mpr ⟨unlike, earlier⟩)
  · intro parts before other after split earlier
    obtain ⟨short, right, later⟩ := parts
    cases before with
    | nil =>
      obtain ⟨rfl, rfl⟩ := List.cons.inj split
      exact ⟨short, right⟩
    | cons first before =>
      obtain ⟨rfl, rfl⟩ := List.cons.inj split
      obtain ⟨unlike, earlier⟩ := List.forall_mem_cons.mp earlier
      exact later unlike before other after rfl earlier

namespace Stivale2Module.Named

theorem text_split (named : m.Named) : ∃ rest, m.string = m.text ++ 0 :: rest := textOf_split named.terminated

theorem text_short (named : m.Named) : m.text.length < 128 := by
  obtain ⟨rest, split⟩ := named.text_split
  have size := m.size
  rw [split] at size
  simp only [List.length_append, List.length_cons, stivale2ModuleStringSize] at size
  omega

theorem fits (named : m.Named) (stack : Stack) : NameFits stack m := by
  obtain ⟨rest, split⟩ := named.text_split
  have short := named.text_short
  refine ⟨m.text.length, by unfold moduleNameSize; omega, ?_⟩
  generalize m.text = text at split short
  rw [split, List.append_assoc, List.getElem?_append_right (Nat.le_refl _), Nat.sub_self]
  rfl

/-- A stored name begins with the characters of the name, and what follows them is
what the buffer held there. -/
theorem stored_name (named : m.Named) {stack : Stack} (stored : Stored stack m entry) :
    entry.name = m.text ++ (List.replicate 64 0 ++ stack.name.drop 64).drop m.text.length := by
  obtain ⟨rest, split⟩ := named.text_split
  have source : m.string ++ stack.beyond = m.text ++ 0 :: (rest ++ stack.beyond) := by
    generalize m.text = text at split
    rw [split, List.append_assoc]
    rfl
  have name := stored.name m.text.length (by rw [source]; exact strlen_text (textOf_clean _))
  rw [name, source, List.take_left]

/-- Short names keep a terminator. -/
theorem stored_short (named : m.Named) {stack : Stack} (stored : Stored stack m entry) (short : m.text.length < 64) :
    ∃ rest, entry.name = m.text ++ 0 :: rest := by
  refine ⟨(List.replicate 64 0 ++ stack.name.drop 64).drop (m.text.length + 1), ?_⟩
  rw [named.stored_name stored]
  congr 1
  rw [List.drop_eq_getElem_cons (by rw [List.length_append, List.length_replicate]; omega)]
  congr 1
  rw [List.getElem_append_left (by rw [List.length_replicate]; exact short), List.getElem_replicate]

/-- Longer ones take the one the buffer happens to have. -/
theorem stored_long (named : m.Named) {stack : Stack} (stored : Stored stack m entry) (long : 64 ≤ m.text.length)
    (dirty : 0 ∉ stack.name) : strlen entry.name = .error .outOfBounds := by
  rw [named.stored_name stored, List.drop_append]
  refine strlen_endless ?_
  have cleared : (List.replicate 64 (0 : BitVec 8)).drop m.text.length = [] :=
    List.drop_eq_nil_of_le (by rw [List.length_replicate]; exact long)
  rw [cleared, List.nil_append]
  intro member
  rcases List.mem_append.mp member with own | garbage
  · exact textOf_clean _ own
  · exact dirty (List.mem_of_mem_drop (List.mem_of_mem_drop garbage))

theorem stored_range (named : m.Named) {stack : Stack} (stored : Stored stack m entry) : entry.addr = m.range := by
  have ordered := named.ordered
  have word := named.word
  rw [stored.addr]
  refine congrArg (Range.mk m.begin) ?_
  simp only [wrapSub, wrap]
  omega

end Stivale2Module.Named

theorem lookup_self (same : m.text = name) : lookup (m :: mods) name = m.range := by
  unfold lookup
  rw [List.find?_cons_of_pos (by simpa using same)]

theorem lookup_other (differ : m.text ≠ name) : lookup (m :: mods) name = lookup mods name := by
  unfold lookup
  rw [List.find?_cons_of_neg (by simpa using differ)]

/-- No module has a name that long. -/
theorem lookup_endless (named : ∀ m ∈ mods, m.Named) (long : 128 ≤ name.length) : lookup mods name = ⟨0, 0⟩ := by
  have none : mods.find? (fun m => m.text = name) = none := by
    refine List.find?_eq_none.mpr fun m member same => ?_
    have short := (named m member).text_short
    rw [of_decide_eq_true same] at short
    omega
  rw [lookup, none]

theorem Alike.long (alike : Alike name m.text) (differ : m.text ≠ name) (short : m.text.length < 128) :
    128 ≤ name.length := by
  rcases alike with same | ⟨lengths, wrapped⟩
  · exact absurd same.symm differ
  · omega

/-- One comparison of a lookup, with a module whose name is short. -/
theorem findModule_turn {stack : Stack} {entries : List HandoverModule} (named : m.Named) (clean : 0 ∉ name)
    (stored : Stored stack m entry) (short : m.text.length < 64) :
    (Alike name m.text → findModule (name ++ [0]) (entry :: entries) = .ok m.range) ∧
      (¬ Alike name m.text → findModule (name ++ [0]) (entry :: entries) = findModule (name ++ [0]) entries) := by
  obtain ⟨rest, kept⟩ := named.stored_short stored short
  obtain ⟨order, compared, meaning⟩ := @strcmp_text name m.text [] rest clean (textOf_clean _)
  rw [findModule, kept, compared, ok_bind, ← meaning]
  refine ⟨fun same => ?_, fun differ => if_neg differ⟩
  rw [if_pos same, named.stored_range stored]
  rfl

theorem findModule_findable {count : Nat} {entries : List HandoverModule} (named : ∀ m ∈ mods, m.Named)
    (clean : 0 ∉ name) (stores : Stores stack count mods entries) (findable : Findable mods name) :
    findModule (name ++ [0]) entries = .ok (lookup mods name) := by
  induction mods generalizing count entries with
  | nil =>
    obtain rfl := stores
    rfl
  | cons m rest ih =>
    obtain ⟨entry, entries, rfl, stored, others⟩ := stores
    obtain ⟨this, named'⟩ := List.forall_mem_cons.mp named
    obtain ⟨short, right, later⟩ := findable_cons.mp findable
    obtain ⟨hit, miss⟩ := @findModule_turn m entry name _ entries this clean stored short
    by_cases alike : Alike name m.text
    · rw [hit alike]
      by_cases same : m.text = name
      · rw [lookup_self same]
      · rw [(right alike).resolve_left same, lookup_endless named (alike.long same this.text_short)]
    · have differ : m.text ≠ name := fun same => alike (.inl same.symm)
      rw [miss alike, lookup_other differ]
      exact ih named' others (later alike)

/-- Over a buffer without a zero, a lookup that is right has met nothing else. -/
theorem findable_of_found {count : Nat} {entries : List HandoverModule} (named : ∀ m ∈ mods, m.Named) (clean : 0 ∉ name)
    (dirty : ∀ i, 0 ∉ (stack i).name) (stores : Stores stack count mods entries)
    (found : findModule (name ++ [0]) entries = .ok (lookup mods name)) : Findable mods name := by
  induction mods generalizing count entries with
  | nil =>
    intro before m after split
    simp at split
  | cons m rest ih =>
    obtain ⟨entry, entries, rfl, stored, others⟩ := stores
    obtain ⟨this, named'⟩ := List.forall_mem_cons.mp named
    have short : m.text.length < 64 := by
      by_contra long
      rw [findModule, strcmp, strlen_text clean, this.stored_long stored (Nat.le_of_not_lt long) (dirty count)] at found
      cases found
    obtain ⟨hit, miss⟩ := @findModule_turn m entry name _ entries this clean stored short
    refine findable_cons.mpr ⟨short, fun alike => ?_, fun unlike => ?_⟩
    · rw [hit alike] at found
      by_cases same : m.text = name
      · exact .inl same
      · rw [lookup_endless named (alike.long same this.text_short)] at found
        exact .inr (Except.ok.inj found)
    · have differ : m.text ≠ name := fun same => unlike (.inl same.symm)
      rw [miss unlike, lookup_other differ] at found
      exact ih named' others found

/-- Modules are found again, whatever the stack held, exactly when the memory map
fits and the lookup meets short names only. -/
theorem module_lookup {tags : List Stivale2Tag} (few : (modulesOf tags).length ≤ handoverModules)
    (named : ∀ m ∈ modulesOf tags, m.Named) (clean : 0 ∉ name) :
    (∀ stack, ∃ handover, stivale2ParseHeader stack tags = .ok handover ∧
      handoverFindModule handover (name ++ [0]) = .ok (lookup (modulesOf tags) name)) ↔
    (entriesOf tags).length ≤ limitMemoryMapSize ∧ Findable (modulesOf tags) name := by
  have fits (stack : Nat → Stack) (room : (entriesOf tags).length ≤
    limitMemoryMapSize) : TagsFit stack noHandover tags := by
    refine tagsFit_iff.mpr ⟨room, few, fun i m found => ?_⟩
    exact (named m (List.mem_of_getElem? found)).fits _
  constructor
  · intro right
    have dirty (i : Nat) : 0 ∉ ((fun _ => ⟨List.replicate 128 0x41, [], rfl⟩ : Nat → Stack) i).name := by
      dsimp only
      exact fun member => by cases List.eq_of_mem_replicate member
    obtain ⟨handover, ran, found⟩ := right fun _ => ⟨List.replicate 128 0x41, [], rfl⟩
    have room : (entriesOf tags).length ≤ limitMemoryMapSize := by
      have inside := (parse_bounds (fun _ => ⟨List.replicate 128 0x41, [], rfl⟩) tags).1
      rw [ran] at inside
      exact (inside.mp (fun stopped => by cases stopped)).1
    obtain ⟨after, same, -, more, kept, stores⟩ :=
      parseTags_fit (fits (fun _ => ⟨List.replicate 128 0x41, [], rfl⟩) room)
    obtain rfl := Except.ok.inj (ran.symm.trans same)
    rw [handoverFindModule, kept, List.nil_append] at found
    exact ⟨room, findable_of_found named clean dirty stores found⟩
  · intro condition stack
    obtain ⟨after, ran, -, more, kept, stores⟩ := parseTags_fit (fits stack condition.1)
    refine ⟨after, ran, ?_⟩
    rw [handoverFindModule, kept, List.nil_append]
    exact findModule_findable named clean stores condition.2

/-- A module of four pages with the given name. -/
def moduleNamed (text : List (BitVec 8)) (short : text.length ≤ 128) : Stivale2Module :=
  ⟨0x1000, 0x5000, text ++ List.replicate (128 - text.length) 0, by
    rw [List.length_append, List.length_replicate, stivale2ModuleStringSize]
    omega⟩

def symbolsModule : Stivale2Module := moduleNamed [0x73, 0x79, 0x6d, 0x62, 0x6f, 0x6c, 0x73] (by decide)

theorem module_lookup_symbols : ∃ handover,
    stivale2ParseHeader (fun _ => ⟨List.replicate 128 0x62, [], rfl⟩) [.modules [symbolsModule]] = .ok handover ∧
      handoverFindModule handover ([0x73, 0x79, 0x6d, 0x62, 0x6f, 0x6c, 0x73] ++ [0]) =
        .ok (lookup (modulesOf [.modules [symbolsModule]]) [0x73, 0x79, 0x6d, 0x62, 0x6f, 0x6c, 0x73]) := by
  have named : ∀ m ∈ modulesOf [.modules [symbolsModule]], m.Named := by
    intro m member
    obtain rfl := List.mem_singleton.mp member
    exact ⟨by decide, by decide, by decide⟩
  have findable : Findable (modulesOf [.modules [symbolsModule]]) symbolsModule.text := by
    refine findable_cons.mpr ⟨by decide, fun _ => .inl rfl, fun _ => ?_⟩
    intro before m after split
    cases before <;> cases split
  exact (module_lookup (by decide) named (by decide)).mpr ⟨by decide, findable⟩ _

def longModule : Stivale2Module := moduleNamed (List.replicate 64 0x61) (by decide)

set_option maxRecDepth 4000 in
/-- Under a name of 64 characters nothing is found, where the buffer had one more. -/
theorem module_lookup_lost :
    lookup (modulesOf [.modules [longModule]]) (List.replicate 64 0x61) = ⟨0x1000, 0x4000⟩ ∧
    ∃ handover, stivale2ParseHeader (fun _ => ⟨List.replicate 65 0x62 ++ List.replicate 63 0, [], rfl⟩)
      [.modules [longModule]] =
        .ok handover ∧
      handoverFindModule handover (List.replicate 64 0x61 ++ [0]) = .ok ⟨0, 0⟩ := ⟨rfl, _, rfl, rfl⟩

end Navy
