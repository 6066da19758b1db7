import Navy.Atomic
import Navy.Library.StackMail
import Navy.Proofs.ProcessTable
import Mathlib.Data.List.Forall2

/-! Who gets which message, over every run of atomic calls. The mailboxes of a
run simulate stacks of letters, each named by the step that sent it. -/

namespace Navy

open Outcome StackMail

def Record.event : Record → Event Nat Ipc
  | .sent caller msg => .sent msg.receiver ⟨caller, msg.receiver, msg.data⟩
  | .received caller msg => .received caller msg
  | .other => .quiet

/-- Everything one step can do to the process table. -/
inductive Effect (table : List Process) (current : Nat) : Record → List Process → Prop where
  | kept : Effect table current .other table
  | created {process : Process} (empty : process.mailbox = vecInit) : Effect table current .other (table ++ [process])
  | changed {pid : Nat} {process after : Process} (found : table[pid]? = some process)
      (same : after.mailbox = process.mailbox) : Effect table current .other (table.set pid after)
  | sent {msg : Ipc} {answer : Option Nat} {target : Process} {mailbox : Vec Ipc}
    (found : table[msg.receiver]? = some target)
      (pushed : vecPush target.mailbox ⟨current, msg.receiver, msg.data⟩ answer = .ok mailbox) :
      Effect table current (.sent current msg) (table.set msg.receiver { target with mailbox })
  | received {msg : Ipc} {process : Process} {mailbox : Vec Ipc} (found : table[current]? = some process)
      (popped : vecPop process.mailbox = .ok (msg, mailbox)) :
      Effect table current (.received current msg) (table.set current { process with mailbox })

namespace Table

variable {sched after : Sched} {table : List Process}

/-- A send that came back put the message into the receiver's mailbox. -/
theorem send_pushed {msg filled : Ipc} {answer : Option Nat} (valid : Table sched table)
    (ran : syscallIpcsend sched msg answer = .ok (filled, after)) :
    ∃ target mailbox, table[msg.receiver]? = some target ∧ target.state = .running ∧
      vecPush target.mailbox ⟨sched.currentPid, msg.receiver, msg.data⟩ answer = .ok mailbox ∧
      Table after (table.set msg.receiver { target with mailbox }) := by
  obtain ⟨⟨sent, proc, middle⟩, first, rest⟩ := bind_ok ran
  obtain ⟨rfl, rfl, target, grown, found, alive, expanded, checked, -⟩ := valid.send_expand first
  obtain ⟨stored, second, rest⟩ := bind_ok rest
  obtain ⟨rfl, rfl⟩ := Prod.mk.inj (Except.ok.inj rest)
  have inside := (List.getElem?_eq_some_iff.mp found).1
  obtain ⟨again, mailbox, loaded, store, done, -⟩ := checked.send_store (by simpa using inside) second
  rw [List.getElem?_set_self inside] at loaded
  obtain rfl := Option.some.inj loaded
  rw [List.set_set] at done
  refine ⟨target, mailbox, found, alive, ?_, done⟩
  unfold vecPush
  rw [expanded]
  exact store

theorem ipcsend {msg filled : Ipc} {answer : Option Nat} (valid : Table sched table)
    (ran : syscallIpcsend sched msg answer = .ok (filled, after)) :
    ∃ result, Table after result ∧ Effect table sched.currentPid (.sent sched.currentPid msg) result := by
  obtain ⟨target, mailbox, found, -, pushed, done⟩ := valid.send_pushed ran
  exact ⟨_, done, .sent found pushed⟩

/-- Both receive calls take the newest message when there is one. -/
theorem receive_taken {got : Option Ipc} {idle : Sched} (valid : Table sched table)
    (ran : (do
      if ← ipcrcvTest sched then
        let (msg, sched) ← ipcrcvPop sched
        return (some msg, sched)
      else return (none, idle) : Checked (Option Ipc × Sched)) = .ok (got, after)) :
    got = none ∧ after = idle ∨ ∃ msg process mailbox, got = some msg ∧ table[sched.currentPid]? = some process ∧
      vecPop process.mailbox = .ok (msg, mailbox) ∧ Table after (table.set sched.currentPid { process with mailbox }) ∧
      after.currentPid = sched.currentPid := by
  obtain ⟨ready, -, rest⟩ := bind_ok ran
  cases ready with
  | true =>
    obtain ⟨⟨msg, popped⟩, pop, rest⟩ := bind_ok rest
    obtain ⟨rfl, rfl⟩ := Prod.mk.inj (Except.ok.inj rest)
    obtain ⟨process, mailbox, found, taken, done, same⟩ := valid.receive_pop pop
    exact .inr ⟨msg, process, mailbox, rfl, found, taken, done, same⟩
  | false =>
    obtain ⟨rfl, rfl⟩ := Prod.mk.inj (Except.ok.inj rest)
    exact .inl ⟨rfl, rfl⟩

theorem receive {got : Option Ipc} {idle : Sched} (valid : Table sched table) (rests : Table idle table)
    (ran : (do
      if ← ipcrcvTest sched then
        let (msg, sched) ← ipcrcvPop sched
        return (some msg, sched)
      else return (none, idle) : Checked (Option Ipc × Sched)) = .ok (got, after)) :
    ∃ result, Table after result ∧ Effect table sched.currentPid (.answered sched.currentPid got) result := by
  rcases valid.receive_taken ran with ⟨rfl, rfl⟩ | ⟨msg, process, mailbox, rfl, found, taken, done, -⟩
  · exact ⟨table, rests, .kept⟩
  · exact ⟨_, done, .received found taken⟩

theorem act {action : Action} {record : Record} (valid : Table sched table)
    (ran : act sched action = .ok (record, after)) :
    ∃ result, Table after result ∧ Effect table sched.currentPid record result := by
  cases action with
  | create pml rip bstack stack arg1 arg2 arg3 arg4 answer =>
    obtain ⟨pushed, push, rest⟩ := bind_ok ran
    obtain ⟨rfl, rfl⟩ := Prod.mk.inj (Except.ok.inj rest)
    exact ⟨_, (valid.push push).1, .created rfl⟩
  | tick regs =>
    obtain ⟨⟨resumed, switched⟩, yield, rest⟩ := bind_ok ran
    obtain ⟨rfl, rfl⟩ := Prod.mk.inj (Except.ok.inj rest)
    rcases valid.yield yield with ⟨same, -⟩ | ⟨process, found, saved, -⟩
    · exact ⟨table, same, .kept⟩
    · exact ⟨_, saved, .changed found rfl⟩
  | exit rbx =>
    obtain ⟨-, -, rest⟩ := bind_ok ran
    obtain ⟨exited, exit, rest⟩ := bind_ok rest
    obtain ⟨rfl, rfl⟩ := Prod.mk.inj (Except.ok.inj rest)
    obtain ⟨process, found, done, -⟩ := valid.exit exit
    exact ⟨_, done, .changed found rfl⟩
  | send msg answer =>
    obtain ⟨-, -, rest⟩ := bind_ok ran
    obtain ⟨caller, got, rest⟩ := bind_ok rest
    obtain rfl := valid.getpid got
    obtain ⟨⟨filled, sent⟩, send, rest⟩ := bind_ok rest
    obtain ⟨rfl, rfl⟩ := Prod.mk.inj (Except.ok.inj rest)
    exact valid.ipcsend send
  | receiveSync =>
    obtain ⟨-, -, rest⟩ := bind_ok ran
    obtain ⟨caller, got, rest⟩ := bind_ok rest
    obtain rfl := valid.getpid got
    obtain ⟨⟨answer, received⟩, receive, rest⟩ := bind_ok rest
    obtain ⟨rfl, rfl⟩ := Prod.mk.inj (Except.ok.inj rest)
    have yields : Table (forceYield sched) table := ⟨valid.shows, valid.pids, valid.last, valid.current⟩
    exact valid.receive yields receive
  | receiveOneshot =>
    obtain ⟨-, -, rest⟩ := bind_ok ran
    obtain ⟨caller, got, rest⟩ := bind_ok rest
    obtain rfl := valid.getpid got
    obtain ⟨⟨answer, received⟩, receive, rest⟩ := bind_ok rest
    obtain ⟨rfl, rfl⟩ := Prod.mk.inj (Except.ok.inj rest)
    exact valid.receive valid receive

end Table

/-- Only a receive by `pid` itself takes anything out of its mailbox. -/
theorem Effect.mailbox_kept {table result : List Process} {current pid : Nat} {record : Record} {process : Process}
    (effect : Effect table current record result) (found : table[pid]? = some process)
    (apart : pid ≠ current ∨ ∀ got, record ≠ .received pid got) :
    ∃ next more, result[pid]? = some next ∧ ∀ items, process.mailbox.Shows items → next.mailbox.Shows
      (items ++ more) := by
  have inside := (List.getElem?_eq_some_iff.mp found).1
  have same : ∃ next more, some process = some next ∧ ∀ items, process.mailbox.Shows items →
    next.mailbox.Shows (items ++ more) :=
    ⟨process, [], rfl, fun items shows => by rwa [List.append_nil]⟩
  cases effect with
  | kept => rwa [found]
  | created empty => rwa [List.getElem?_append_left inside, found]
  | changed member mailbox =>
    rename_i changed before after
    by_cases equal : changed = pid
    · subst equal
      obtain rfl := Option.some.inj (found.symm.trans member)
      exact ⟨after, [], List.getElem?_set_self inside, fun items shows => by rwa [List.append_nil, mailbox]⟩
    · rwa [List.getElem?_set_ne equal, found]
  | sent member pushed =>
    rename_i msg answer target mailbox
    by_cases equal : msg.receiver = pid
    · subst equal
      obtain rfl := Option.some.inj (found.symm.trans member)
      exact ⟨_, _, List.getElem?_set_self inside, fun items shows => shows.push pushed⟩
    · rwa [List.getElem?_set_ne equal, found]
  | received member popped =>
    have other : current ≠ pid := by
      rintro rfl
      cases apart with
      | inl different => exact different rfl
      | inr never => exact never _ rfl
    rwa [List.getElem?_set_ne other, found]

/-- The mailbox of `pid` holds the letters queued for it, oldest first. -/
def Holds (mail : Mail Nat Ipc) (pid : Nat) (process : Process) : Prop :=
  ∃ items, process.mailbox.Shows items ∧ List.Forall₂ (fun id msg => mail.Letter id pid msg) (mail.queued pid) items

structure Agrees (table : List Process) (mail : Mail Nat Ipc) : Prop where
  boxes : ∀ (pid : Nat) (process : Process), table[pid]? = some process → Holds mail pid process
  outside : ∀ pid, table.length ≤ pid → mail.queued pid = []

theorem Holds.longer {mail after : Mail Nat Ipc} {event : Event Nat Ipc} {pid : Nat} {process next : Process}
    (holds : Holds mail pid process) (longer : after.trace = mail.trace ++ [event])
    (queue : after.queued pid = mail.queued pid) (same : next.mailbox = process.mailbox) : Holds after pid next := by
  obtain ⟨items, shows, letters⟩ := holds
  refine ⟨items, same ▸ shows, ?_⟩
  rw [queue]
  exact .imp (fun id msg letter => (letter_longer longer).mpr (.inl letter)) letters

namespace Agrees

variable {table : List Process} {mail after : Mail Nat Ipc} {event : Event Nat Ipc}

theorem set {pid : Nat} {process : Process} (agrees : Agrees table mail) (longer : after.trace = mail.trace ++ [event])
    (others : ∀ other, other ≠ pid → after.queued other = mail.queued other) (inside : pid < table.length)
    (holds : Holds after pid process) : Agrees (table.set pid process) after := by
  constructor
  · intro other found member
    by_cases same : other = pid
    · subst same
      rw [List.getElem?_set_self inside] at member
      rw [← Option.some.inj member]
      exact holds
    · rw [List.getElem?_set_ne (Ne.symm same)] at member
      exact (agrees.boxes other found member).longer longer (others other same) rfl
  · intro other beyond
    rw [List.length_set] at beyond
    rw [others other (by omega)]
    exact agrees.outside other beyond

theorem quiet (agrees : Agrees table mail) : Agrees table mail.quiet :=
  ⟨fun pid process found => (agrees.boxes pid process found).longer rfl rfl rfl, agrees.outside⟩

theorem push {process : Process} (agrees : Agrees table mail) (empty : process.mailbox = vecInit) :
    Agrees (table ++ [process]) mail.quiet := by
  constructor
  · intro pid found member
    by_cases inside : pid < table.length
    · rw [List.getElem?_append_left inside] at member
      exact (agrees.boxes pid found member).longer rfl rfl rfl
    · rw [List.getElem?_append_right (by omega)] at member
      obtain rfl := List.mem_singleton.mp (List.mem_of_getElem? member)
      refine ⟨[], empty ▸ .init, ?_⟩
      have none : mail.quiet.queued pid = [] := agrees.outside pid (by omega)
      rw [none]
      exact .nil
  · intro pid beyond
    rw [List.length_append, List.length_singleton] at beyond
    exact agrees.outside pid (by omega)

end Agrees

/-- The history of a run as a stack of letters for every process. -/
structure Simulates (run : Sched × List Record) (mail : Mail Nat Ipc) : Prop where
  reached : Reached mail
  trace : mail.trace = run.2.map Record.event
  table : ∃ table, Table run.1 table ∧ Agrees table mail

private theorem last_letter {related : Nat → Ipc → Prop} {ids : List Nat} {rest : List Ipc} {msg : Ipc}
    (letters : List.Forall₂ related ids (rest ++ [msg])) :
    ∃ before id, ids = before ++ [id] ∧ List.Forall₂ related before rest ∧ related id msg := by
  have kept := List.forall₂_take_append ids rest [msg] letters
  have last := List.forall₂_drop_append ids rest [msg] letters
  obtain ⟨id, none, letter, empty, split⟩ := List.forall₂_cons_right_iff.mp last
  rw [List.forall₂_nil_right_iff.mp empty] at split
  exact ⟨ids.take rest.length, id, by rw [← split, List.take_append_drop], kept, letter⟩

theorem Effect.simulated {table result : List Process} {current : Nat} {record : Record} {mail : Mail Nat Ipc}
    (effect : Effect table current record result) (agrees : Agrees table mail) (reached : Reached mail) :
    ∃ next, Reached next ∧ next.trace = mail.trace ++ [record.event] ∧ Agrees result next := by
  cases effect with
  | kept => exact ⟨mail.quiet, reached.quiet, rfl, agrees.quiet⟩
  | created empty => exact ⟨mail.quiet, reached.quiet, rfl, agrees.push empty⟩
  | changed found same =>
    have inside := (List.getElem?_eq_some_iff.mp found).1
    have holds : Holds mail.quiet _ _ := (agrees.boxes _ _ found).longer rfl rfl same
    exact ⟨mail.quiet, reached.quiet, rfl, agrees.set rfl (fun _ _ => rfl) inside holds⟩
  | sent found pushed =>
    have inside := (List.getElem?_eq_some_iff.mp found).1
    obtain ⟨items, shows, letters⟩ := agrees.boxes _ _ found
    refine ⟨mail.send _ _, reached.send _ _, rfl,
      agrees.set rfl (fun other differ => Function.update_of_ne differ _ _) inside ?_⟩
    refine ⟨_, shows.push pushed, ?_⟩
    simp only [Mail.send, Function.update_self]
    apply List.rel_append
    · exact .imp (fun id msg letter => (letter_longer rfl).mpr (.inl letter)) letters
    · exact .cons ((letter_longer rfl).mpr (.inr ⟨rfl, rfl⟩)) .nil
  | received found popped =>
    have inside := (List.getElem?_eq_some_iff.mp found).1
    obtain ⟨items, shows, letters⟩ := agrees.boxes _ _ found
    obtain ⟨rest, rfl, left, -⟩ := shows.pop popped
    obtain ⟨before, id, queued, kept, letter⟩ := last_letter letters
    refine ⟨mail.receive _ before id _, reached.receive queued letter, rfl,
      agrees.set rfl (fun other differ => Function.update_of_ne differ _ _) inside ?_⟩
    refine ⟨rest, left, ?_⟩
    simp only [Mail.receive, Function.update_self]
    exact .imp (fun id msg letter => (letter_longer rfl).mpr (.inl letter)) kept

theorem turn_simulates {action : Action} {run after : Sched × List Record} {mail : Mail Nat Ipc}
    (simulates : Simulates run mail) (ran : turn run action = .ok after) : ∃ next, Simulates after next := by
  obtain ⟨table, valid, agrees⟩ := simulates.table
  obtain ⟨⟨record, sched⟩, stepped, rest⟩ := bind_ok ran
  obtain rfl := Except.ok.inj rest
  obtain ⟨result, changed, effect⟩ := valid.act stepped
  obtain ⟨next, reached, trace, holds⟩ := effect.simulated agrees simulates.reached
  refine ⟨next, reached, ?_, result, changed, holds⟩
  rw [trace, simulates.trace, List.map_append]
  rfl

theorem run_simulates {cr3 : Nat} {answer : Option Nat} {actions : List Action} {run : Sched × List Record}
    (ran : runActions cr3 answer actions = .ok run) : ∃ mail, Simulates run mail := by
  obtain ⟨sched, boot, rest⟩ := bind_ok ran
  let kept (run : Sched × List Record) : Prop := ∃ mail, Simulates run mail
  have start : kept (sched, []) := by
    refine ⟨.start, .start, rfl, _, .init boot, ?_, fun _ _ => rfl⟩
    intro pid process found
    obtain rfl := List.mem_singleton.mp (List.mem_of_getElem? found)
    exact ⟨[], .init, .nil⟩
  have step (state : Sched × List Record) (action : Action) (after : Sched × List Record) (_ : action ∈ actions)
      (holds : kept state) (stepped : turn state action = .ok after) : kept after := by
    obtain ⟨mail, simulates⟩ := holds
    exact turn_simulates simulates stepped
  exact foldlM_keeps step start rest

end Navy
