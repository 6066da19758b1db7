import Mathlib.Logic.Function.Basic
import Mathlib.Data.List.Pairwise

/-! Mailboxes that are stacks. A history is a trace of events; a message is
named by the position of its sending, so equal contents stay apart. Each
receive takes the newest message its owner still has. -/

namespace StackMail

inductive Event (P : Type u) (M : Type v) where
  | sent (target : P) (content : M)
  | received (owner : P) (content : M)
  | quiet
deriving DecidableEq

/-- `answered` pairs the position of each receive with the send it returned. -/
structure Mail (P : Type u) (M : Type v) where
  trace : List (Event P M)
  queued : P → List Nat
  answered : List (Nat × Nat)

variable {P : Type u} {M : Type v}

def Mail.start : Mail P M := ⟨[], fun _ => [], []⟩

def Mail.quiet (mail : Mail P M) : Mail P M := { mail with trace := mail.trace ++ [.quiet] }

def Mail.send [DecidableEq P] (mail : Mail P M) (target : P) (content : M) : Mail P M where
  trace := mail.trace ++ [.sent target content]
  queued := Function.update mail.queued target (mail.queued target ++ [mail.trace.length])
  answered := mail.answered

def Mail.receive [DecidableEq P] (mail : Mail P M) (owner : P) (rest : List Nat) (id : Nat) (content : M) :
    Mail P M where
  trace := mail.trace ++ [.received owner content]
  queued := Function.update mail.queued owner rest
  answered := mail.answered ++ [(mail.trace.length, id)]

/-- The message sent at position `id`. -/
def Mail.Letter (mail : Mail P M) (id : Nat) (target : P) (content : M) : Prop :=
  mail.trace[id]? = some (.sent target content)

inductive Reached [DecidableEq P] : Mail P M → Prop where
  | start : Reached .start
  | quiet {mail : Mail P M} (before : Reached mail) : Reached mail.quiet
  | send {mail : Mail P M} (before : Reached mail) (target : P) (content : M) : Reached (mail.send target content)
  | receive {mail : Mail P M} (before : Reached mail) {owner : P} {rest : List Nat} {id : Nat} {content : M}
      (top : mail.queued owner = rest ++ [id]) (letter : mail.Letter id owner content) :
      Reached (mail.receive owner rest id content)

/-- The receive at `reply` returned the message sent at `id`: same owner, same content, later. -/
structure Answer (mail : Mail P M) (reply id : Nat) : Prop where
  later : id < reply
  inside : reply < mail.trace.length
  same : ∃ owner content, mail.trace[reply]? = some (.received owner content) ∧ mail.Letter id owner content

structure Valid (mail : Mail P M) : Prop where
  sorted : ∀ owner, (mail.queued owner).Pairwise (· < ·)
  letters : ∀ owner, ∀ id ∈ mail.queued owner, ∃ content, mail.Letter id owner content
  answers : ∀ pair ∈ mail.answered, Answer mail pair.1 pair.2
  ascending : mail.answered.Pairwise fun first last => first.1 < last.1
  once : mail.answered.Pairwise fun first last => first.2 ≠ last.2
  gone : ∀ pair ∈ mail.answered, ∀ owner, pair.2 ∉ mail.queued owner
  all : ∀ reply owner content, mail.trace[reply]? = some (.received owner content) → ∃ id, (reply, id) ∈ mail.answered
  /-- No message is lost. -/
  kept : ∀ id owner content, mail.Letter id owner content →
    id ∈ mail.queued owner ∨ ∃ reply, (reply, id) ∈ mail.answered
  /-- What is queued above a received message was sent after it was received. -/
  fresh : ∀ pair ∈ mail.answered, ∀ owner content, mail.Letter pair.2 owner content →
    ∀ id ∈ mail.queued owner, pair.2 < id → pair.1 < id
  order : mail.answered.Pairwise fun first last => ∀ owner one two,
    mail.Letter first.2 owner one → mail.Letter last.2 owner two → first.2 < last.2 → first.1 < last.2

private theorem trace_append {events : List (Event P M)} {event found : Event P M} {place : Nat} :
    (events ++ [event])[place]? = some found ↔ events[place]? = some found ∨ place = events.length ∧ event = found := by
  rcases Nat.lt_trichotomy place events.length with inside | rfl | outside
  · rw [List.getElem?_append_left inside]
    refine ⟨.inl, fun either => ?_⟩
    cases either with
    | inl old => exact old
    | inr new => omega
  · simp
  · have beyond : (events ++ [event]).length ≤ place := by
      rw [List.length_append, List.length_singleton]
      exact outside
    rw [List.getElem?_eq_none beyond, List.getElem?_eq_none (Nat.le_of_lt outside)]
    refine ⟨nofun, fun either => ?_⟩
    cases either with
    | inl old => cases old
    | inr new => omega

private theorem pairwise_either {T : Type w} {related : T → T → Prop} {items : List T}
    (pairwise : items.Pairwise related) {first last : T} (memberFirst : first ∈ items)
    (memberLast : last ∈ items) (apart : first ≠ last) :
    related first last ∨ related last first := by
  have symmetric : Std.Symm fun one two => related one two ∨ related two one := ⟨fun _ _ either => either.symm⟩
  exact (pairwise.imp .inl : items.Pairwise fun one two => related one two ∨ related two one).forall
    memberFirst memberLast apart

section Letters

variable {mail after : Mail P M} {event : Event P M} {id : Nat} {target owner : P} {content message : M}

theorem Mail.Letter.lt (letter : mail.Letter id target content) : id < mail.trace.length :=
  (List.getElem?_eq_some_iff.mp letter).1

theorem Mail.Letter.unique (one : mail.Letter id target content) (two : mail.Letter id owner message) :
    target = owner ∧ content = message := by
  have same : some (Event.sent target content) = some (.sent owner message) := one.symm.trans two
  simpa using same

theorem letter_longer (longer : after.trace = mail.trace ++ [event]) :
    after.Letter id target content ↔
      mail.Letter id target content ∨ id = mail.trace.length ∧ event = .sent target content := by
  unfold Mail.Letter
  rw [longer, trace_append]

theorem Mail.Letter.before (letter : after.Letter id target content) (longer : after.trace = mail.trace ++ [event])
    (old : id < mail.trace.length) : mail.Letter id target content := by
  cases (letter_longer longer).mp letter with
  | inl before => exact before
  | inr new => omega

theorem Answer.longer {reply : Nat} (answer : Answer mail reply id) (longer : after.trace = mail.trace ++ [event]) :
    Answer after reply id := by
  obtain ⟨later, inside, owner, content, received, letter⟩ := answer
  refine ⟨later, ?_, owner, content, ?_, (letter_longer longer).mpr (.inl letter)⟩
  · rw [longer, List.length_append]
    omega
  · rw [longer, trace_append]
    exact .inl received

end Letters

theorem Valid.start : Valid (.start : Mail P M) := by
  constructor <;> simp [Mail.start, Mail.Letter]

namespace Valid

variable {mail : Mail P M}

theorem quiet (valid : Valid mail) : Valid mail.quiet := by
  have longer : mail.quiet.trace = mail.trace ++ [.quiet] := rfl
  have letters {id : Nat} {target : P} {content : M} : mail.quiet.Letter id target content ↔
    mail.Letter id target content := by
    rw [letter_longer longer]
    simp
  constructor
  · exact valid.sorted
  · intro owner id member
    obtain ⟨content, letter⟩ := valid.letters owner id member
    exact ⟨content, letters.mpr letter⟩
  · exact fun pair member => (valid.answers pair member).longer longer
  · exact valid.ascending
  · exact valid.once
  · exact valid.gone
  · intro reply owner content received
    rw [longer, trace_append] at received
    cases received with
    | inl old => exact valid.all reply owner content old
    | inr new => cases new.2
  · exact fun id owner content letter => valid.kept id owner content (letters.mp letter)
  · exact fun pair member owner content letter => valid.fresh pair member owner content (letters.mp letter)
  · apply valid.order.imp
    intro first last ordered owner one two older newer
    exact ordered owner one two (letters.mp older) (letters.mp newer)

theorem send [DecidableEq P] (valid : Valid mail) (target : P) (content : M) : Valid (mail.send target content) := by
  have longer : (mail.send target content).trace = mail.trace ++ [.sent target content] := rfl
  have queue (owner : P) (id : Nat) : id ∈ (mail.send target content).queued owner ↔
      id ∈ mail.queued owner ∨ id = mail.trace.length ∧ owner = target := by
    by_cases same : owner = target
    · subst same
      simp [Mail.send]
    · simp [Mail.send, same]
  have old (pair : Nat × Nat) (member : pair ∈ mail.answered) : pair.2 < mail.trace.length := by
    have answer := valid.answers pair member
    exact Nat.lt_trans answer.later answer.inside
  constructor
  · intro owner
    by_cases same : owner = target
    · subst same
      simp only [Mail.send, Function.update_self]
      rw [List.pairwise_append]
      refine ⟨valid.sorted owner, List.pairwise_singleton _ _, fun id member last only => ?_⟩
      obtain ⟨content, letter⟩ := valid.letters owner id member
      rw [List.mem_singleton.mp only]
      exact letter.lt
    · simp only [Mail.send, Function.update_of_ne same]
      exact valid.sorted owner
  · intro owner id member
    cases (queue owner id).mp member with
    | inl before =>
      obtain ⟨content, letter⟩ := valid.letters owner id before
      exact ⟨content, (letter_longer longer).mpr (.inl letter)⟩
    | inr new => exact ⟨content, (letter_longer longer).mpr (.inr ⟨new.1, by rw [new.2]⟩)⟩
  · exact fun pair member => (valid.answers pair member).longer longer
  · exact valid.ascending
  · exact valid.once
  · intro pair member owner queued
    cases (queue owner pair.2).mp queued with
    | inl before => exact valid.gone pair member owner before
    | inr new => exact Nat.ne_of_lt (old pair member) new.1
  · intro reply owner content received
    rw [longer, trace_append] at received
    cases received with
    | inl before => exact valid.all reply owner content before
    | inr new => cases new.2
  · intro id owner message letter
    cases (letter_longer longer).mp letter with
    | inl before =>
      apply (valid.kept id owner message before).imp_left
      exact fun queued => (queue owner id).mpr (.inl queued)
    | inr new =>
      obtain ⟨rfl, -⟩ := Event.sent.inj new.2
      exact .inl ((queue _ id).mpr (.inr ⟨new.1, rfl⟩))
  · intro pair member owner message letter id queued newer
    cases (queue owner id).mp queued with
    | inl before => exact valid.fresh pair member owner message (letter.before longer (old pair member)) id before newer
    | inr new =>
      rw [new.1]
      exact (valid.answers pair member).inside
  · apply valid.order.imp_of_mem
    intro first last memberFirst memberLast ordered owner one two older newer
    exact ordered owner one two (older.before longer (old first memberFirst))
      (newer.before longer (old last memberLast))

section Receive

variable [DecidableEq P] {owner : P} {rest : List Nat} {id : Nat} {content : M}

theorem receive_letter {place : Nat} {target : P} {message : M} :
    (mail.receive owner rest id content).Letter place target message ↔ mail.Letter place target message := by
  have longer : (mail.receive owner rest id content).trace = mail.trace ++ [.received owner content] := rfl
  rw [letter_longer longer]
  simp

theorem receive_answered (pair : Nat × Nat) : pair ∈ (mail.receive owner rest id content).answered ↔
    pair ∈ mail.answered ∨ pair = (mail.trace.length, id) := by
  simp [Mail.receive]

theorem receive_queue (owner : P) : (mail.receive owner rest id content).queued owner = rest :=
  Function.update_self _ _ _

theorem receive_other {other : P} (apart : other ≠ owner) : (mail.receive owner rest id content).queued other =
    mail.queued other :=
  Function.update_of_ne apart _ _

variable (valid : Valid mail) (top : mail.queued owner = rest ++ [id])
include valid top

omit [DecidableEq P] in
/-- Below the message taken, its owner has older ones only. -/
theorem receive_below : rest.Pairwise (· < ·) ∧ ∀ place ∈ rest, place < id := by
  have sorted := valid.sorted owner
  rw [top, List.pairwise_append] at sorted
  exact ⟨sorted.1, fun place member => sorted.2.2 place member id (by simp)⟩

theorem receive_kept {place : Nat} {other : P} {message : M} (sent : mail.Letter place other message) :
    place ∈ (mail.receive owner rest id content).queued other ∨
      ∃ reply, (reply, place) ∈ (mail.receive owner rest id content).answered := by
  cases valid.kept place other message sent with
  | inl before =>
    by_cases same : other = owner
    · subst same
      rw [top, List.mem_append, List.mem_singleton] at before
      cases before with
      | inl below =>
        rw [receive_queue]
        exact .inl below
      | inr taken => exact .inr ⟨mail.trace.length, (receive_answered _).mpr (.inr (by rw [taken]))⟩
    · rw [receive_other same]
      exact .inl before
  | inr before =>
    obtain ⟨reply, member⟩ := before
    exact .inr ⟨reply, (receive_answered _).mpr (.inl member)⟩

variable (letter : mail.Letter id owner content)
include letter

/-- What is queued afterwards was queued before, and is not the message taken. -/
theorem receive_queued (other : P) (place : Nat) (member : place ∈ (mail.receive owner rest id content).queued other) :
    place ∈ mail.queued other ∧ place ≠ id := by
  by_cases same : other = owner
  · subst same
    rw [receive_queue] at member
    exact ⟨by simp [top, member], Nat.ne_of_lt ((valid.receive_below top).2 place member)⟩
  · rw [receive_other same] at member
    refine ⟨member, ?_⟩
    rintro rfl
    obtain ⟨message, foreign⟩ := valid.letters other place member
    exact same (foreign.unique letter).1

theorem receive_fresh {pair : Nat × Nat} (member : pair ∈ (mail.receive owner rest id content).answered)
    {other : P} {message : M} (sent : mail.Letter pair.2 other message) {place : Nat}
    (inside : place ∈ (mail.receive owner rest id content).queued other) (newer : pair.2 < place) :
    pair.1 < place := by
  obtain ⟨before, -⟩ := valid.receive_queued top letter other place inside
  cases (receive_answered pair).mp member with
  | inl old => exact valid.fresh pair old other message sent place before newer
  | inr new =>
    subst new
    obtain ⟨rfl, -⟩ := letter.unique sent
    rw [receive_queue] at inside
    exact absurd newer (Nat.lt_asymm ((valid.receive_below top).2 place inside))

theorem receive_order : (mail.receive owner rest id content).answered.Pairwise fun first last => ∀ owner one two,
    mail.Letter first.2 owner one → mail.Letter last.2 owner two → first.2 < last.2 → first.1 < last.2 := by
  simp only [Mail.receive, List.pairwise_append]
  refine ⟨valid.order, List.pairwise_singleton _ _, ?_⟩
  intro pair member only same other one two older newer less
  rw [List.mem_singleton.mp same] at newer less ⊢
  obtain ⟨rfl, -⟩ := letter.unique newer
  exact valid.fresh pair member owner one older id (by simp [top]) less

theorem receive : Valid (mail.receive owner rest id content) := by
  have longer : (mail.receive owner rest id content).trace = mail.trace ++ [.received owner content] := rfl
  constructor
  · intro other
    by_cases same : other = owner
    · subst same
      rw [receive_queue]
      exact (valid.receive_below top).1
    · rw [receive_other same]
      exact valid.sorted other
  · intro other place member
    obtain ⟨message, before⟩ := valid.letters other place (valid.receive_queued top letter other place member).1
    exact ⟨message, receive_letter.mpr before⟩
  · intro pair member
    cases (receive_answered pair).mp member with
    | inl before => exact (valid.answers pair before).longer longer
    | inr new =>
      subst new
      refine ⟨letter.lt, ?_, owner, content, ?_, receive_letter.mpr letter⟩
      · simp [Mail.receive]
      · simp [Mail.receive]
  · simp only [Mail.receive, List.pairwise_append]
    refine ⟨valid.ascending, List.pairwise_singleton _ _, fun pair member only same => ?_⟩
    rw [List.mem_singleton.mp same]
    exact (valid.answers pair member).inside
  · simp only [Mail.receive, List.pairwise_append]
    refine ⟨valid.once, List.pairwise_singleton _ _, fun pair member only same equal => ?_⟩
    rw [List.mem_singleton.mp same] at equal
    exact valid.gone pair member owner (by simp [equal, top])
  · intro pair member other inside
    obtain ⟨before, different⟩ := valid.receive_queued top letter other pair.2 inside
    cases (receive_answered pair).mp member with
    | inl old => exact valid.gone pair old other before
    | inr new => exact different (by rw [new])
  · intro reply other message received
    rw [longer, trace_append] at received
    cases received with
    | inl before =>
      obtain ⟨place, member⟩ := valid.all reply other message before
      exact ⟨place, (receive_answered _).mpr (.inl member)⟩
    | inr new => exact ⟨id, (receive_answered _).mpr (.inr (by rw [new.1]))⟩
  · exact fun place other message sent => valid.receive_kept top (receive_letter.mp sent)
  · exact fun pair member other message sent place inside newer =>
      valid.receive_fresh top letter member (receive_letter.mp sent) inside newer
  · apply (valid.receive_order top letter).imp
    intro first second ordered other one two older newer
    exact ordered other one two (receive_letter.mp older) (receive_letter.mp newer)

end Receive

theorem ordered (valid : Valid mail) {first last : Nat × Nat} (memberFirst : first ∈ mail.answered)
    (memberLast : last ∈ mail.answered) (less : first.1 < last.1) {owner : P} {one two : M}
    (older : mail.Letter first.2 owner one) (newer : mail.Letter last.2 owner two) (sent : first.2 < last.2) :
    first.1 < last.2 := by
  have different : first ≠ last := by
    rintro rfl
    exact Nat.lt_irrefl _ less
  cases pairwise_either (valid.ascending.and valid.order) memberFirst memberLast different with
  | inl both => exact both.2 owner one two older newer sent
  | inr wrong => exact absurd wrong.1 (Nat.lt_asymm less)

theorem answered_once (valid : Valid mail) {one two id : Nat} (first : (one, id) ∈ mail.answered)
    (last : (two, id) ∈ mail.answered) : one = two := by
  by_contra apart
  cases pairwise_either valid.once first last (fun same => apart (congrArg Prod.fst same)) with
  | inl differ => exact differ rfl
  | inr differ => exact differ rfl

theorem answered_unique (valid : Valid mail) {reply one two : Nat} (first : (reply, one) ∈ mail.answered)
    (last : (reply, two) ∈ mail.answered) : one = two := by
  by_contra apart
  cases pairwise_either valid.ascending first last (fun same => apart (congrArg Prod.snd same)) with
  | inl less => exact Nat.lt_irrefl _ less
  | inr less => exact Nat.lt_irrefl _ less

/-- The older of two messages to one owner comes out before the newer one
exactly when it was already out as the newer one was sent. -/
theorem older_first (valid : Valid mail) {older newer reply : Nat} {owner : P} {one two : M}
    (first : mail.Letter older owner one) (last : mail.Letter newer owner two) (sent : older < newer)
    (answered : (reply, newer) ∈ mail.answered) :
    (∃ before, before < reply ∧ (before, older) ∈ mail.answered) ↔
      ∃ before, before < newer ∧ (before, older) ∈ mail.answered := by
  constructor
  · rintro ⟨before, less, member⟩
    exact ⟨before, valid.ordered member answered less first last sent, member⟩
  · rintro ⟨before, less, member⟩
    exact ⟨before, Nat.lt_trans less (valid.answers _ answered).later, member⟩

/-- Which send each receive answers, as a function. -/
theorem sources (valid : Valid mail) : ∃ source : Nat → Nat, ∀ reply owner content,
    mail.trace[reply]? = some (.received owner content) → (reply, source reply) ∈ mail.answered := by
  classical
  let source (reply : Nat) : Nat := if found : ∃ id, (reply, id) ∈ mail.answered then found.choose else 0
  refine ⟨source, fun reply owner content received => ?_⟩
  have found := valid.all reply owner content received
  have chosen : source reply = found.choose := dif_pos found
  rw [chosen]
  exact found.choose_spec

end Valid

theorem Reached.valid [DecidableEq P] {mail : Mail P M} (reached : Reached mail) : Valid mail := by
  induction reached with
  | start => exact .start
  | quiet before ih => exact ih.quiet
  | send before target content ih => exact ih.send target content
  | receive before top letter ih => exact ih.receive top letter

end StackMail
