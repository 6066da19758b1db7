import Navy.Library.Contracts
import Navy.Proofs.TestRuns

/-! What the test program prints: its sender, `kmain` and the timer keep what its
receivers do, so in every order of ticks and turns the lines come out whole. -/

namespace Navy.TestIpc
open Outcome Paths

section Sender

variable {world after : World} {scene scene' : Scene} {left : Nat} {sent sent' : Nat → List Ipc} {point : Point}
  {msg letter : Ipc}
  {others : List Ipc}

/-- The sender has gone on, and may have put something more into a mailbox. -/
theorem Good.sender_moves (good : Good world scene left sent) (own : world.pid = 3)
    (points : after.point = Function.update world.point 3 point) (outputs : after.output = world.output)
    (shows : after.kernel.Shows scene') (states : scene'.states = scene.states.set 3 point.state)
    (phases : ∀ other, other ≠ 3 → scene'.phase other = scene.phase other)
    (boxes : ∀ other, other ∉ [1, 2] → scene'.boxes other = scene.boxes other)
    (sends : Sends point (scene'.phase 3) (sent' 1) (sent' 2))
    (mail : ∀ reader ∈ [readerOne, readerTwo], ∃ more, scene'.boxes reader.pid = scene.boxes reader.pid ++ more ∧
      sent' reader.pid = sent reader.pid ++ more) : Good after scene' left sent' := by
  have inside := good.current
  rw [own] at inside
  refine @Good.goes world after scene scene' left sent sent' 3 good (by decide) inside shows
    (fun other apart => ?_) ?_ ?_
    (fun other apart => ?_) (fun other outside => ?_) ?_ (fun reader among => ?_) (fun other outside => ?_)
  · rw [points, Function.update_of_ne apart]
  · rw [states, List.length_set]
  · rw [points, Function.update_self, states, List.getElem?_set_self inside]
  · rw [states, List.getElem?_set_ne (Ne.symm apart)]
  · have apart : other ≠ 3 := by
      rintro rfl
      simp at outside
    rw [phases other apart]
    exact good.users other outside
  · rw [points, Function.update_self]
    exact sends
  · obtain ⟨⟨got, stage, whole⟩, some⟩ := good.reads reader among
    obtain ⟨more, grown, sent⟩ := mail reader among
    have apart : reader.pid ≠ 3 := Nat.ne_of_lt (Reader.bounds among).2
    refine ⟨⟨got, ?_, ?_⟩, fun popping => ?_⟩
    · rw [points, outputs, Function.update_of_ne apart, phases _ apart]
      exact stage
    · rw [grown, sent, ← List.append_assoc, whole]
    · rw [grown]
      rw [phases _ apart] at popping
      exact List.append_ne_nil_of_left_ne_nil (some popping) more
  · rw [boxes other outside, outputs]
    exact good.empty other outside

/-- A receiver that has not got its letter yet has not exited. -/
theorem Good.listens {reader : Reader} (good : Good world scene left sent) (among : reader ∈ [readerOne, readerTwo])
    (none : sent reader.pid = []) : world.point reader.pid ≠ .exited := by
  obtain ⟨⟨got, stage, whole⟩, -⟩ := good.reads reader among
  rw [none] at whole
  obtain ⟨rfl, -⟩ := List.append_eq_nil_iff.mp whole
  intro exited
  rw [exited] at stage
  generalize here : Point.exited = point at stage
  generalize scene.phase reader.pid = phase at stage
  generalize world.output reader.pid = output at stage
  cases stage with
  | main => cases here
  | waits => exact reader.stays here.symm
  | pops => exact reader.stays here.symm

theorem send_check {kernel : Preempted} {answer : Option Nat} (user : kernel.phase kernel.sched.currentPid = .user) :
    send kernel msg answer = (move kernel (.check msg answer) >>= fun kernel => return (false, kernel)) := by
  unfold send
  rw [user]

theorem send_store {kernel next : Preempted} {answer : Option Nat} {proc : Nat} {more : Ipc}
    (flying : kernel.phase kernel.sched.currentPid = .sending proc more) (ran : move kernel .store = .ok next) :
    send kernel msg answer = .ok (true, next) := by
  unfold send
  rw [flying]
  dsimp only
  rw [ran]
  rfl

theorem go_send {chance : Chance} (here : world.point world.pid = .send msg others) : world.go chance = (do
    let (sent, kernel) ← send world.kernel msg chance.answer
    if sent then return { world.reach (sending others) with kernel }
    else return { world with kernel }) := by
  unfold World.go
  rw [here]

theorem Good.checks {reader : Reader} (good : Good world scene left sent) (own : world.pid = 3)
    (among : reader ∈ [readerOne, readerTwo]) (here : world.point 3 = .send msg others)
    (user : scene.phase 3 = .user) (receiver : msg.receiver = reader.pid)
    (unsent : sent reader.pid = []) (sends : Sends (.send msg others)
      (.sending msg.receiver { msg with sender := 3 }) (sent 1) (sent 2))
    (chance : Chance) : Meets (world.go chance) (Turn world scene left sent) fun _ => chance.answer = none := by
  have below := good.current
  have created := good.created
  have here' : world.point world.pid = .send msg others := own ▸ here
  have user' : scene.phase world.pid = .user := own ▸ user
  have runs := good.runs below (by rw [here']; simp)
  have target : scene.states[msg.receiver]? = some .running := by
    rw [receiver]
    exact good.runs (Nat.lt_trans (Reader.bounds among).2 (own ▸ below)) (good.listens among unsent)
  rw [go_send here', @send_check _ world.kernel _ ((congrFun good.shows.phase _).trans user')]
  cases ran : move world.kernel (.check msg chance.answer) with
  | error fault =>
    show chance.answer = none
    by_contra granted
    obtain ⟨after, returns⟩ := good.shows.check_returns runs user' target granted
    rw [ran] at returns
    cases returns
  | ok kernel =>
    show Turn world scene left sent { world with kernel }
    obtain ⟨shows, stays⟩ := good.shows.checked ran
    have current : world.kernel.sched.currentPid = 3 := own
    rw [current] at shows
    have runs' : scene.states[3]? = some .running := own ▸ runs
    have good' := @Good.sender_moves world { world with kernel } scene
      (scene.reach 3 (.sending msg.receiver { msg with sender := 3 })) left sent sent
      (.send msg others) good own (by rw [← here, Function.update_eq_self]) rfl shows (set_found runs').symm
      (fun other apart => scene.reach_other apart _) (fun _ _ => rfl) (by rw [Scene.reach_self]; exact sends)
      fun reader _ => ⟨[], (List.append_nil _).symm, (List.append_nil _).symm⟩
    refine good.turn good' stays (by omega) (fun _ _ => rfl) (fun other apart => scene.reach_other (own ▸ apart) _) ?_
    rw [own, Scene.reach_self, here, user]
    exact Nat.lt_succ_self _

theorem Good.stores {reader : Reader} (good : Good world scene left sent) (own : world.pid = 3)
    (among : reader ∈ [readerOne, readerTwo]) (here : world.point 3 = .send msg others)
    (flying : scene.phase 3 = .sending reader.pid letter)
    (sends : Sends (sending others) .user (Function.update sent reader.pid (sent reader.pid ++ [letter]) 1)
      (Function.update sent reader.pid (sent reader.pid ++ [letter]) 2)) (chance : Chance) :
    ∃ after, world.go chance = .ok after ∧ Turn world scene left sent after := by
  have below := good.current
  have created := good.created
  have flying' : scene.phase world.pid = .sending reader.pid letter := own ▸ flying
  have alone (other : Nat) (more : Ipc) (flight : scene.phase other = .sending reader.pid more) : other =
    world.pid := by
    rw [own]
    by_contra apart
    by_cases reads : other ∈ [1, 2, 3]
    · have mine : other = 1 ∨ other = 2 := by
        simp only [List.mem_cons, List.not_mem_nil, or_false] at reads
        omega
      have quiet (reader : Reader) (among : reader ∈ [readerOne, readerTwo]) (same : reader.pid = other) : False := by
        obtain ⟨⟨got, stage, -⟩, -⟩ := good.reads reader among
        rw [same, flight] at stage
        exact stage.receives
      cases mine with
      | inl one => exact quiet readerOne (by simp) one.symm
      | inr two => exact quiet readerTwo (by simp) two.symm
    · rw [good.users other reads] at flight
      cases flight
  obtain ⟨kernel, ran, stays, shows⟩ := good.shows.stored flying' alone
  have current : world.kernel.sched.currentPid = 3 := own
  rw [current] at shows
  refine ⟨{ world.reach (sending others) with kernel }, ?_, ?_⟩
  · rw [go_send (own ▸ here), @send_store _ world.kernel kernel _ _ _ ((congrFun good.shows.phase _).trans flying') ran]
    rfl
  have runs : scene.states[3]? = some .running := good.runs (own ▸ below) (by rw [here]; simp)
  have steady : (sending others).state = .running := by
    cases others <;> rfl
  have good' := @Good.sender_moves world { world.reach (sending others) with kernel } scene _ left sent
    (Function.update sent reader.pid (sent reader.pid ++ [letter])) (sending others) good own
      (by rw [← own]; rfl) rfl shows
    (by rw [steady]; exact (set_found runs).symm) (fun other apart => scene.reach_other apart _)
    (fun other outside => Function.update_of_ne (Reader.apart among outside) _ _)
    (by
      dsimp only
      rw [Scene.reach_self]
      exact sends)
    (fun other among' => by
      by_cases same : other.pid = reader.pid
      · exact ⟨[letter], by simp [same], by simp [same]⟩
      · exact ⟨[], by simp [same], by simp [same]⟩)
  refine good.turn good' stays (by omega) (fun other apart => Function.update_of_ne apart _ _)
    (fun other apart => scene.reach_other (own ▸ apart) _) ?_
  rw [own]
  dsimp only
  rw [Scene.reach_self, here, flying]
  show rank _ (Function.update world.point world.pid (sending others) 3) .user < 2 * others.length + 2
  rw [own, Function.update_self]
  cases others with
  | nil => exact Nat.one_lt_two
  | cons next rest =>
    show 2 * rest.length + 3 < 2 * (rest.length + 1) + 2
    omega

theorem Good.sender_goes (good : Good world scene left sent) (own : world.pid = 3) (chance : Chance) :
    Meets (world.go chance) (Turn world scene left sent) fun _ => chance.answer = none := by
  have below := good.current
  have created := good.created
  have sends := good.sends
  have one : readerOne ∈ [readerOne, readerTwo] := by simp
  have two : readerTwo ∈ [readerOne, readerTwo] := by simp
  generalize here : world.point 3 = point at sends
  generalize now : scene.phase 3 = phase at sends
  generalize first : sent 1 = sentOne at sends
  generalize second : sent 2 = sentTwo at sends
  cases sends with
  | main =>
    have ran := good.go_main (own ▸ here) (own ▸ now) chance
    have starts : mainSwitch world.pid = sender := by
      rw [own]
      rfl
    rw [ran, starts]
    have runs : scene.states[3]? = some .running := good.runs (own ▸ below) (by rw [here]; simp)
    have good' := @Good.sender_moves world (world.reach sender) scene scene left sent sent sender good own
      (by rw [← own]; rfl) rfl good.shows
      (set_found runs).symm (fun _ _ => rfl) (fun _ _ => rfl) (by rw [now, first, second]; exact .first)
      fun reader _ => ⟨[], (List.append_nil _).symm, (List.append_nil _).symm⟩
    refine good.turn good' ⟨rfl, Nat.le_refl _⟩ (by omega) (fun other apart => Function.update_of_ne apart _ _)
      (fun _ _ => rfl) ?_
    show rank _ (Function.update world.point world.pid sender world.pid) _ < _
    rw [Function.update_self, own, here, now]
    exact Nat.lt_succ_self 5
  | first => exact good.checks own one here now rfl first (by rw [first, second]; exact .firstStore) chance
  | firstStore =>
    obtain ⟨after, ran, turn⟩ := @Good.stores world scene left sent _ _ _ readerOne good own one here now
      (by simp [readerOne, first, second]; exact .second) chance
    rw [ran]
    exact turn
  | second => exact good.checks own two here now rfl second (by rw [first, second]; exact .secondStore) chance
  | secondStore =>
    obtain ⟨after, ran, turn⟩ := @Good.stores world scene left sent _ _ _ readerTwo good own two here now
      (by simp [readerTwo, first, second]; exact .exits) chance
    rw [ran]
    exact turn
  | exits =>
    have runs := good.runs below (by rw [own, here]; simp)
    have current : world.kernel.sched.currentPid = 3 := own
    obtain ⟨kernel, ran, stays, shows⟩ := good.shows.exited runs (current ▸ now) 0
    rw [current] at shows
    rw [go_exit (own ▸ here) ran chance]
    have good' := @Good.sender_moves world { world.reach .exited with kernel } scene _ left sent sent .exited good own (by rw [← own]; rfl) rfl
      shows rfl (fun other apart => (Scene.put_other apart).2.1)
      (fun other _ => congrFun (Function.update_eq_self 3 scene.boxes) other)
        (by rw [Scene.put_phase, first, second]; exact .exited)
      fun reader _ => ⟨[], by rw [List.append_nil]; exact congrFun (Function.update_eq_self 3 scene.boxes) _,
        (List.append_nil _).symm⟩
    refine good.turn good' stays (by omega) (fun other apart => Function.update_of_ne apart _ _)
      (fun other apart => (Scene.put_other (own ▸ apart)).2.1) ?_
    show rank _ (Function.update world.point world.pid .exited world.pid) _ < _
    rw [Function.update_self, own, here]
    exact Nat.zero_lt_one
  | exited =>
    rw [go_exited (own ▸ here) chance]
    exact good.idle good.shows ⟨rfl, Nat.le_refl _⟩ rfl rfl (.inr (.inl (own ▸ here)))

end Sender

section Steps

variable {world after : World} {scene : Scene} {left : Nat} {sent : Nat → List Ipc} {event : Event}

/-- A mailbox stays empty while its process has not been pushed. -/
theorem Good.fresh (good : Good world scene left sent) (below : scene.states.length ≤ 3) :
    scene.boxes scene.states.length = [] := by
  have sends := good.sends
  rw [good.waiting 3 below] at sends
  have empty (reader : Reader) (among : reader ∈ [readerOne, readerTwo])
    (none : sent reader.pid = []) : scene.boxes reader.pid = [] := by
    obtain ⟨⟨got, -, whole⟩, -⟩ := good.reads reader among
    rw [none] at whole
    exact (List.append_eq_nil_iff.mp whole).2
  generalize first : sent 1 = one at sends
  generalize second : sent 2 = two at sends
  generalize scene.phase 3 = phase at sends
  cases sends
  by_cases mail : scene.states.length ∈ [1, 2]
  · simp only [List.mem_cons, List.not_mem_nil, or_false] at mail
    cases mail with
    | inl one =>
      rw [one]
      exact empty readerOne (by simp) first
    | inr two =>
      rw [two]
      exact empty readerTwo (by simp) second
  · exact (good.empty _ mail).1

theorem Good.kernel_moves (good : Good world scene (left + 1) sent)
    (points : after.point = Function.update world.point 0 (.kmain left)) (outputs : after.output = world.output)
    (shows : after.kernel.Shows { scene with states := scene.states ++ [.running] }) :
    Good after { scene with states := scene.states ++ [.running] } left sent := by
  have some : 0 < scene.states.length := Nat.lt_of_le_of_lt (Nat.zero_le _) good.current
  have created := good.created
  have here : after.point 0 = .kmain left := by
    rw [points, Function.update_self]
  have elsewhere {other : Nat} (apart : other ≠ 0) : after.point other = world.point other := by
    rw [points, Function.update_of_ne apart]
  refine ⟨shows, here, ?_, fun pid beyond => ?_, fun pid inside => ?_, good.users, ?_, fun reader among =>
    ?_, outputs ▸ good.empty⟩
  · rw [List.length_append, List.length_singleton]
    omega
  · rw [List.length_append, List.length_singleton] at beyond
    rw [elsewhere (by omega)]
    exact good.waiting pid (by omega)
  · rw [List.length_append, List.length_singleton] at inside
    by_cases last : pid < scene.states.length
    · rw [List.getElem?_append_left last, good.alive pid last]
      by_cases first : pid = 0
      · rw [first, here, good.kernel]
        rfl
      · rw [elsewhere first]
    -- the process just pushed has not run
    · have same : pid = scene.states.length := by omega
      rw [same, List.getElem?_append_right (Nat.le_refl _), Nat.sub_self, elsewhere (Nat.ne_of_gt some),
        good.waiting _ (Nat.le_refl _)]
      rfl
  · rw [elsewhere (Nat.succ_ne_zero 2)]
    exact good.sends
  · have apart : reader.pid ≠ 0 := Nat.ne_of_gt (Reader.bounds among).1
    obtain ⟨⟨got, stage, whole⟩, some⟩ := good.reads reader among
    refine ⟨⟨got, ?_, whole⟩, some⟩
    rw [elsewhere apart, outputs]
    exact stage

theorem Good.kernel_goes (good : Good world scene left sent) (own : world.pid = 0) (chance : Chance) :
    Meets (world.go chance) (Turn world scene left sent) fun _ => chance.answer = none := by
  have created := good.created
  have below := good.current
  have point := good.kernel
  cases left with
  | zero =>
    have ran : world.go chance = .ok world := by
      unfold World.go
      rw [own, point]
      rfl
    rw [ran]
    exact good.idle good.shows ⟨rfl, Nat.le_refl _⟩ rfl rfl (.inl (own ▸ point))
  | succ left =>
    have fresh := good.fresh (by omega)
    have goes : world.go chance = (do
        let kernel ← move world.kernel (.create chance.pml chance.rip chance.bstack chance.stack 0 0 0 0 chance.answer)
        return { world.reach (.kmain left) with kernel }) := by
      unfold World.go
      rw [own, point]
    rw [goes]
    cases ran : move world.kernel (.create chance.pml chance.rip chance.bstack chance.stack 0 0 0 0 chance.answer) with
    | error fault =>
      show chance.answer = none
      by_contra granted
      obtain ⟨after, returns⟩ :=
        @Preempted.Shows.create_returns world.kernel scene chance.pml chance.rip chance.bstack chance.stack
        chance.answer good.shows granted
      rw [ran] at returns
      cases returns
    | ok kernel =>
      show Turn world scene (left + 1) sent { world.reach (.kmain left) with kernel }
      obtain ⟨shows, stays⟩ := good.shows.created fresh ran
      have good' := @Good.kernel_moves world { world.reach (.kmain left) with kernel } scene left sent good
        (by rw [← own]; rfl) rfl shows
      refine good.turn good' stays (by omega) (fun other apart => Function.update_of_ne apart _ _) (fun _ _ => rfl) ?_
      show rank _ (Function.update world.point world.pid (.kmain left) world.pid) _ < _
      rw [Function.update_self, own, point]
      exact Nat.lt_succ_self left

theorem Good.go (good : Good world scene left sent) (chance : Chance) :
    Meets (world.go chance) (Turn world scene left sent) fun _ => chance.answer = none := by
  have below := good.current
  have created := good.created
  have reads {reader : Reader} (among : reader ∈ [readerOne, readerTwo]) (own : world.pid = reader.pid) :
      Meets (world.go chance) (Turn world scene left sent) fun _ => chance.answer = none := by
    obtain ⟨after, ran, turn⟩ := good.reader_goes among own chance
    rw [ran]
    exact turn
  have who : world.pid = 0 ∨ world.pid = 1 ∨ world.pid = 2 ∨ world.pid = 3 := by omega
  rcases who with own | own | own | own
  · exact good.kernel_goes own chance
  · exact @reads readerOne (by simp) own
  · exact @reads readerTwo (by simp) own
  · exact good.sender_goes own chance

theorem Good.ticks (good : Good world scene left sent) (regs : Registers) :
    ∃ after, world.step (.tick regs) = .ok after ∧ Good after scene left sent ∧ after.point = world.point ∧
      (world.kernel.sched.tick < switchTick ∧ after.pid = world.pid ∧ after.kernel.sched.tick =
        world.kernel.sched.tick + 1 ∨
        world.kernel.sched.tick = switchTick ∧ Rotation.FirstAfter world.kernel.sched.ring after.pid) := by
  have created : 0 < scene.states.length := Nat.lt_of_le_of_lt (Nat.zero_le _) good.current
  have runs := good.runs created (by rw [good.kernel]; simp)
  obtain ⟨kernel, ran, shows, cases⟩ := good.shows.ticked runs regs
  refine ⟨{ world with kernel }, ?_, good.rests shows rfl rfl, rfl, cases⟩
  unfold World.step
  dsimp only
  rw [ran]
  rfl

/-- What an event asks of the heap is granted. -/
def Event.Granted : Event → Prop
  | .tick _ => True
  | .go chance => chance.answer ≠ none

theorem Good.step (good : Good world scene left sent) (event : Event) :
    Meets (world.step event) (fun after => ∃ scene left sent, Good after scene left sent) fun _ => ¬ event.Granted := by
  cases event with
  | tick regs =>
    obtain ⟨after, ran, good', -, -⟩ := good.ticks regs
    rw [ran]
    exact ⟨scene, left, sent, good'⟩
  | go chance => exact (good.go chance).mono (fun _ turn => turn.good) fun _ refused granted => granted refused

theorem start_good {sched : Sched} {cr3 : Nat} {answer : Option Nat} (ran : schedInit .zero cr3 answer = .ok sched) :
    Good (.start sched) ⟨[.running], fun _ => [], fun _ => .user⟩ 3 fun _ => [] := by
  have valid := Table.init ran
  have zero : sched.tick = 0 := by
    obtain ⟨processes, -, rest⟩ := bind_ok ran
    obtain rfl := Except.ok.inj rest
    rfl
  refine ⟨⟨_, valid, rfl, fun pid process member => ?_, rfl, nofun, ?_⟩, rfl, rfl, fun pid beyond =>
    ?_, fun pid inside => ?_, fun _ _ => rfl, .main, fun reader among => ?_, fun _ _ => ⟨rfl, rfl⟩⟩
  · obtain rfl := List.mem_singleton.mp (List.mem_of_getElem? member)
    exact .init
  · show sched.tick ≤ switchTick
    rw [zero]
    exact Nat.zero_le _
  · exact if_neg (by simp at beyond; omega)
  · have first : pid = 0 := by simpa using inside
    subst first
    rfl
  · have later : reader.pid ≠ 0 := Nat.ne_of_gt (Reader.bounds among).1
    refine ⟨⟨[], ?_, rfl⟩, nofun⟩
    have main : (World.start sched).point reader.pid = .main := if_neg later
    rw [main]
    exact .main

theorem Reached.good (reached : Reached world) : ∃ scene left sent, Good world scene left sent := by
  obtain ⟨cr3, answer, sched, events, boot, runs⟩ := reached
  have keeps (before : World) (event : Event) (after : World) (good : ∃ scene left sent, Good before scene left sent)
      (ran : before.step event = .ok after) : ∃ scene left sent, Good after scene left sent := by
    obtain ⟨scene, left, sent, good⟩ := good
    exact (good.step event).ran ran
  have starts : ∃ scene left sent, Good (.start sched) scene left sent := ⟨_, _, _, start_good boot⟩
  have kept := Path.keeps keeps runs starts
  exact kept

theorem Reached.next (reached : Reached world) (ran : world.step event = .ok after) : Reached after := by
  obtain ⟨cr3, answer, sched, events, boot, runs⟩ := reached
  exact ⟨cr3, answer, sched, _, boot, Path.append runs (.cons ran .nil)⟩

theorem Reached.steps (reached : Reached world) (granted : event.Granted) : ∃ after, world.step event = .ok after := by
  obtain ⟨scene, left, sent, good⟩ := reached.good
  have meets := good.step event
  cases ran : world.step event with
  | ok after => exact ⟨after, rfl⟩
  | error fault =>
    rw [ran] at meets
    exact absurd granted meets

/-- What a receiver has printed is the start of its line, and all of it once it has exited. -/
theorem Good.prints {reader : Reader} (good : Good world scene left sent) (among : reader ∈ [readerOne, readerTwo]) :
    world.output reader.pid <+: reader.line ∧
      (world.point reader.pid = .exited → world.output reader.pid = reader.line) := by
  obtain ⟨⟨got, stage, -⟩, -⟩ := good.reads reader among
  generalize world.output reader.pid = output at stage
  generalize world.point reader.pid = point at stage
  generalize scene.phase reader.pid = phase at stage
  cases stage with
  | main => exact ⟨List.nil_prefix, nofun⟩
  | waits => exact ⟨List.nil_prefix, fun exited => absurd exited reader.stays⟩
  | pops => exact ⟨List.nil_prefix, fun exited => absurd exited reader.stays⟩
  | logs =>
    obtain ⟨⟨number, format, args, logs, -⟩, -⟩ := reader.tells
    rw [logs]
    exact ⟨List.nil_prefix, nofun⟩
  | prints whole => exact ⟨⟨_, whole⟩, nofun⟩
  | exits => exact ⟨List.prefix_refl _, nofun⟩
  | exited => exact ⟨List.prefix_refl _, fun _ => rfl⟩

end Steps

/-- A turn and a tick, over and over. -/
def alternating (time : Nat) : Event :=
  if time % 2 = 0 then .go ⟨0, 0, 0, ⟨0, 0⟩, heapBlock, fun _ => 0⟩ else .tick .zero

/-- The world after so many of the events. -/
def World.after (world : World) (event : Nat → Event) : Nat → World
  | 0 => world
  | time + 1 => match (world.after event time).step (event time) with
    | .ok next => next
    | .error _ => world.after event time

theorem alternating_granted (time : Nat) : (alternating time).Granted := by
  unfold alternating
  split
  · exact Option.some_ne_none _
  · trivial

theorem after_steps {sched : Sched} {cr3 : Nat} {answer : Option Nat} {event : Nat → Event}
    (boot : schedInit .zero cr3 answer = .ok sched) (granted : ∀ time, (event time).Granted) (time : Nat) :
    Reached ((World.start sched).after event time) ∧
      ((World.start sched).after event time).step (event time) = .ok ((World.start sched).after event (time + 1)) := by
  have steps {time : Nat} (reached : Reached ((World.start sched).after event time)) :
      ((World.start sched).after event time).step (event time) = .ok ((World.start sched).after event (time + 1)) := by
    obtain ⟨next, ran⟩ := reached.steps (granted time)
    have taken : (World.start sched).after event (time + 1) = next := by
      unfold World.after
      rw [ran]
    rw [ran, taken]
  induction time with
  | zero =>
    have reached : Reached ((World.start sched).after event 0) := ⟨cr3, answer, sched, [], boot, .nil⟩
    exact ⟨reached, steps reached⟩
  | succ time ih =>
    have reached := ih.1.next ih.2
    exact ⟨reached, steps reached⟩

/-- In every order of ticks and turns each receiver prints its own line and nothing
else, all of it before it exits, and no other process prints. -/
theorem test_output {world : World} (reached : Reached world) :
    world.output 1 <+: lineOne ∧ (world.point 1 = .exited → world.output 1 = lineOne) ∧
      world.output 2 <+: lineTwo ∧ (world.point 2 = .exited → world.output 2 = lineTwo) ∧
      ∀ pid, pid ∉ [1, 2] → world.output pid = [] := by
  obtain ⟨scene, left, sent, good⟩ := reached.good
  obtain ⟨prefixOne, allOne⟩ := @Good.prints world scene left sent readerOne good (by simp)
  obtain ⟨prefixTwo, allTwo⟩ := @Good.prints world scene left sent readerTwo good (by simp)
  exact ⟨prefixOne, allOne, prefixTwo, allTwo, fun pid other => (good.empty pid other).2⟩

theorem test_output_alternating : ∃ sched, schedInit .zero 0 heapBlock = .ok sched ∧ ∀ time,
    ((World.start sched).after alternating time).output 1 <+: lineOne ∧
      (((World.start sched).after alternating time).point 1 = .exited →
        ((World.start sched).after alternating time).output 1 = lineOne) ∧
      ((World.start sched).after alternating time).output 2 <+: lineTwo ∧
      (((World.start sched).after alternating time).point 2 = .exited →
        ((World.start sched).after alternating time).output 2 = lineTwo) ∧
      ∀ pid, pid ∉ [1, 2] → ((World.start sched).after alternating time).output pid = [] := by
  obtain ⟨sched, boot⟩ : ∃ sched, schedInit .zero 0 heapBlock = .ok sched := ⟨_, rfl⟩
  exact ⟨sched, boot, fun time => test_output (after_steps boot alternating_granted time).1⟩

/-- No order of ticks and turns brings the test program to a fault, as long as the
heap has memory: the receivers of its messages are there, and a mailbox found not
empty is not empty when the message is taken. -/
theorem test_never_faults {world : World} {event : Event} (reached : Reached world) (granted : event.Granted) :
    ∃ after, world.step event = .ok after := reached.steps granted

theorem test_never_faults_alternating : ∃ sched, schedInit .zero 0 heapBlock = .ok sched ∧
    ∀ time, ∃ after, ((World.start sched).after alternating time).step (alternating time) = .ok after := by
  obtain ⟨sched, boot⟩ : ∃ sched, schedInit .zero 0 heapBlock = .ok sched := ⟨_, rfl⟩
  exact ⟨sched, boot, fun time => test_never_faults (after_steps boot alternating_granted time).1
    (alternating_granted time)⟩

end Navy.TestIpc
