import Mathlib.Logic.Basic
import Mathlib.Data.List.Basic

/-! Radix trees stored as tables of entries, several of them at once. A table is
named by the path that leads to it; trees may share the subtrees below chosen
first indices. What must never happen is that one table answers to two paths. -/

namespace RadixForest

variable {T : Type u} {I : Type v} {E : Type w} (child : E → Option T)

/-- The table at the end of `path`, starting from `table`. -/
def follow (store : T → I → E) : T → List I → Option T
  | table, [] => some table
  | table, index :: path => (child (store table index)).bind fun next => follow store next path

def put [DecidableEq T] [DecidableEq I] (store : T → I → E) (table : T) (index : I) (entry : E) : T → I → E :=
  fun other place => if other = table ∧ place = index then entry else store other place

/-- Paths that begin with a shared index belong to every tree at once. -/
def Shared (global : I → Prop) : List I → Prop
  | [] => False
  | index :: _ => global index

/-- Up to `depth` indices below the roots, a table is reached along one path
only, and from two roots only when that path is shared. -/
structure Separated (global : I → Prop) (depth : Nat) (roots : T → Prop) (store : T → I → E) : Prop where
  apart : ∀ {root other : T} {path way : List I} {table : T}, roots root → roots other →
    path.length ≤ depth → way.length ≤ depth →
    follow child store root path = some table → follow child store other way = some table →
    path = way ∧ (root = other ∨ Shared global path)

variable {child} {store : T → I → E}

theorem follow_append (root : T) (path rest : List I) :
    follow child store root (path ++ rest) =
      (follow child store root path).bind fun table => follow child store table rest := by
  induction path generalizing root with
  | nil => rfl
  | cons index path ih =>
    simp only [List.cons_append, follow]
    cases child (store root index) with
    | none => rfl
    | some next => exact ih next

theorem follow_snoc (root : T) (path : List I) (index : I) :
    follow child store root (path ++ [index]) =
      (follow child store root path).bind fun table => child (store table index) := by
  rw [follow_append]
  cases follow child store root path with
  | none => rfl
  | some table => simp [follow, Option.bind_some]

theorem Shared.extend {global : I → Prop} {path : List I} (shared : Shared global path) (rest : List I) :
    Shared global (path ++ rest) := by
  cases path with
  | nil => cases shared
  | cons index path => exact shared

/-- Tables off the path may be rewritten. -/
theorem follow_congr {after : T → I → E} {root : T} {path : List I}
    (same : ∀ start index rest table, path = start ++ index :: rest →
      follow child store root start = some table → child (after table index) = child (store table index)) :
    follow child after root path = follow child store root path := by
  induction path generalizing root with
  | nil => rfl
  | cons index path ih =>
    simp only [follow]
    rw [same [] index path root rfl rfl]
    cases next : child (store root index) with
    | none => rfl
    | some table =>
      apply ih
      intro start place rest found split reached
      exact same (index :: start) place rest found (by rw [split]; rfl) (by simp [follow, next, reached])

section Writes

variable [DecidableEq T] [DecidableEq I] {global : I → Prop} {depth : Nat} {roots : T → Prop}

theorem follow_put_away {root table : T} {index : I} {entry : E} {path : List I}
    (away : ∀ start rest, path = start ++ index :: rest → follow child store root start ≠ some table) :
    follow child (put store table index entry) root path = follow child store root path := by
  apply follow_congr
  intro start place rest found split reached
  have different : ¬ (found = table ∧ place = index) := by
    rintro ⟨rfl, rfl⟩
    exact away start rest split reached
  simp only [put, different, if_false]

/-- A write into a table at the bottom level leaves every path to a table alone. -/
theorem follow_put_leaf (separated : Separated child global depth roots store) {root table : T} {path : List I}
    (isRoot : roots root) (bottom : path.length = depth) (reached : follow child store root path = some table)
    (index : I) (entry : E) {other : T} (isOther : roots other) {way : List I} (short : way.length ≤ depth) :
    follow child (put store table index entry) other way = follow child store other way := by
  apply follow_put_away
  rintro start rest rfl hit
  simp only [List.length_append, List.length_cons] at short
  have same := (separated.apart isRoot isOther (by omega) (by omega) reached hit).1
  rw [same] at bottom
  omega

/-- Linking an empty table that nothing reaches adds exactly one path, in every
tree that shares the slot. -/
theorem follow_put_link (separated : Separated child global depth roots store) {root table fresh : T} {path : List I}
    {index : I} {entry : E} (isRoot : roots root) (above : path.length < depth)
    (reached : follow child store root path = some table) (absent : child (store table index) = none)
    (link : child entry = some fresh)
    (unreached : ∀ other way, roots other → way.length ≤ depth → follow child store other way ≠ some fresh)
    (empty : ∀ place, child (store fresh place) = none)
    {other : T} (isOther : roots other) {way : List I} (short : way.length ≤ depth) (found : T) :
    follow child (put store table index entry) other way = some found ↔
      follow child store other way = some found ∨
        way = path ++ [index] ∧ found = fresh ∧ follow child store other path = some table := by
  -- a path through the slot reaches the table along `path`, for separation allows no other
  by_cases through : ∃ rest, way = path ++ index :: rest ∧ follow child store other path = some table
  · obtain ⟨rest, rfl, hit⟩ := through
    have before : follow child (put store table index entry) other path = some table := by
      rw [← hit]
      apply follow_put_away
      rintro start tail split again
      have longer := congrArg List.length split
      simp only [List.length_append, List.length_cons] at longer
      have same := (separated.apart isOther isOther (by omega) (by omega) hit again).1
      rw [← same] at longer
      omega
    have distinct : fresh ≠ table := by
      rintro rfl
      exact unreached root path isRoot (by omega) reached
    have old : follow child store other (path ++ index :: rest) = none := by
      rw [follow_append, hit]
      simp [follow, absent]
    have new : follow child (put store table index entry) other (path ++ index :: rest) =
        follow child (put store table index entry) fresh rest := by
      rw [follow_append, before]
      simp [follow, put, link]
    rw [old, new]
    cases rest with
    | nil => simp [follow, hit, eq_comm]
    | cons place rest =>
      simp [follow, put, distinct, empty]
  · have same : follow child (put store table index entry) other way = follow child store other way := by
      apply follow_put_away
      rintro start rest rfl hit
      simp only [List.length_append, List.length_cons] at short
      have path_eq := (separated.apart isRoot isOther (by omega) (by omega) reached hit).1
      subst path_eq
      exact through ⟨rest, rfl, hit⟩
    rw [same]
    constructor
    · exact .inl
    · rintro (old | ⟨rfl, _, hit⟩)
      · exact old
      · exact absurd ⟨[], rfl, hit⟩ through

theorem Separated.put_link (separated : Separated child global depth roots store) {root table fresh : T} {path : List I}
    {index : I} {entry : E} (isRoot : roots root) (above : path.length < depth)
    (reached : follow child store root path = some table) (absent : child (store table index) = none)
    (link : child entry = some fresh)
    (unreached : ∀ other way, roots other → way.length ≤ depth → follow child store other way ≠ some fresh)
    (empty : ∀ place, child (store fresh place) = none) :
    Separated child global depth roots (put store table index entry) := by
  constructor
  intro first second start way found isFirst isSecond startShort wayShort startHit wayHit
  rw [follow_put_link separated isRoot above reached absent link unreached empty isFirst startShort] at startHit
  rw [follow_put_link separated isRoot above reached absent link unreached empty isSecond wayShort] at wayHit
  rcases startHit with old | ⟨rfl, rfl, slot⟩ <;> rcases wayHit with other | ⟨rfl, fresh, place⟩
  · exact separated.apart isFirst isSecond startShort wayShort old other
  · exact absurd (fresh ▸ old) (unreached first start isFirst startShort)
  · exact absurd other (unreached second way isSecond wayShort)
  · have joined := (separated.apart isFirst isSecond (by omega) (by omega) slot place).2
    exact ⟨rfl, joined.imp_right fun shared => shared.extend _⟩

end Writes

section Roots

variable {global : I → Prop} {depth : Nat} {roots : T → Prop}

theorem Separated.subset (separated : Separated child global depth roots store) {fewer : T → Prop}
    (subset : ∀ root, fewer root → roots root) : Separated child global depth fewer store :=
  ⟨fun isRoot isOther => separated.apart (subset _ isRoot) (subset _ isOther)⟩

/-- Two stores with the same paths below the roots are equally separated. -/
theorem Separated.congr (separated : Separated child global depth roots store) {after : T → I → E}
    (same : ∀ root path, roots root → path.length ≤ depth →
      follow child after root path = follow child store root path) :
    Separated child global depth roots after := by
  constructor
  intro root other path way table isRoot isOther pathShort wayShort pathHit wayHit
  rw [same root path isRoot pathShort] at pathHit
  rw [same other way isOther wayShort] at wayHit
  exact separated.apart isRoot isOther pathShort wayShort pathHit wayHit

/-- A root whose entries are another root's global entries, and nothing else. -/
structure Copied (child : E → Option T) (global : I → Prop) (store : T → I → E) (model fresh : T) : Prop where
  shared : ∀ index, global index → child (store fresh index) = child (store model index)
  own : ∀ index, ¬ global index → child (store fresh index) = none

theorem Copied.follow {model fresh : T} (copied : Copied child global store model fresh) {path : List I} {table : T}
    (hit : follow child store fresh path = some table) :
    path = [] ∧ table = fresh ∨ Shared global path ∧ RadixForest.follow child store model path = some table := by
  cases path with
  | nil => exact .inl ⟨rfl, (Option.some.inj hit).symm⟩
  | cons index path =>
    by_cases isGlobal : global index
    · refine .inr ⟨isGlobal, ?_⟩
      rw [← hit]
      simp only [RadixForest.follow, copied.shared index isGlobal]
    · simp [RadixForest.follow, copied.own index isGlobal] at hit

theorem Separated.add_root (separated : Separated child global depth roots store) {model fresh : T}
    (isModel : roots model) (copied : Copied child global store model fresh)
    (unreached : ∀ other way, roots other → way.length ≤ depth → follow child store other way ≠ some fresh) :
    Separated child global depth (fun root => roots root ∨ root = fresh) store := by
  constructor
  intro first second path way table isFirst isSecond pathShort wayShort pathHit wayHit
  rcases isFirst with isFirst | rfl <;> rcases isSecond with isSecond | rfl
  · exact separated.apart isFirst isSecond pathShort wayShort pathHit wayHit
  · rcases copied.follow wayHit with ⟨_, rfl⟩ | ⟨shared, viaModel⟩
    · exact absurd pathHit (unreached first path isFirst pathShort)
    · have same := (separated.apart isFirst isModel pathShort wayShort pathHit viaModel).1
      exact ⟨same, .inr (same ▸ shared)⟩
  · rcases copied.follow pathHit with ⟨_, rfl⟩ | ⟨shared, viaModel⟩
    · exact absurd wayHit (unreached second way isSecond wayShort)
    · have same := (separated.apart isModel isSecond pathShort wayShort viaModel wayHit).1
      exact ⟨same, .inr shared⟩
  · rcases copied.follow pathHit with ⟨rfl, rfl⟩ | ⟨_, path_hit⟩ <;>
      rcases copied.follow wayHit with ⟨rfl, same⟩ | ⟨_, way_hit⟩
    · exact ⟨rfl, .inl rfl⟩
    · exact absurd way_hit (unreached model way isModel wayShort)
    · exact absurd (same ▸ path_hit) (unreached model path isModel pathShort)
    · exact ⟨(separated.apart isModel isModel pathShort wayShort path_hit way_hit).1, .inl rfl⟩

end Roots

end RadixForest
