import Overbook.Async.EventLoop
import Overbook.Async.Translate
import Overbook.Outbox.Relay

/-! The relay loop of one process. A timer starts a tick, the tick drains once and arms the next
timer; manual drains compete with it for one flag, and a shutdown for the timer. -/
namespace Overbook.Outbox

open Async Prog

structure RelayConfig extends OutboxConfig where
  relayEnabled : Bool := true
  pollIntervalMs : Int := 1000

inductive RelayEffect where
  | service (e : Effect)
  | schedule (delayMs : Int)

abbrev RelayEffect.Answer : RelayEffect → Type
  | .service e => e.Answer
  | .schedule _ => Unit

abbrev Script (α : Type) := Prog RelayEffect RelayEffect.Answer Err α

def lift {α : Type} (p : Service α) : Script α := p.translate .service fun _ r => r

def schedule (delayMs : Int) : Script Unit := await (RelayEffect.schedule delayMs)

def tick (config : RelayConfig) (replica : Replica) : Script Unit :=
  tryCatch
    (do
      let published ← lift (drainOnce config.toOutboxConfig replica)
      -- keep draining without waiting while there is a visible backlog
      schedule (if 0 < published then 0 else config.pollIntervalMs))
    fun _ => schedule config.pollIntervalMs

/- `POST /outbox/drain`. -/
def drain (config : RelayConfig) (replica : Replica) : Script Nat :=
  lift (drainOnce config.toOutboxConfig replica)

inductive Caller where
  | tick
  | drain
  deriving DecidableEq

def Caller.code (config : RelayConfig) (replica : Replica) : Caller → Script (Option Nat)
  | tick => do Outbox.tick config replica; pure none
  | drain => do pure (some (← Outbox.drain config replica))

structure Timer where
  id : Nat
  due : Time

/-- The fields of `OutboxRelay`, and what Node keeps for it: the timers that are armed, and how many
there have been. -/
structure OutboxRelay where
  timer : Option Nat := none
  running : Bool := false
  stopped : Bool := false
  bootstrapped : Bool := false
  clock : Time
  armed : List Timer := []
  timers : Nat := 0

namespace OutboxRelay

def schedule (delayMs : Int) (s : OutboxRelay) : OutboxRelay :=
  if s.stopped then s
  else { s with
    timer := some s.timers
    armed := s.armed ++ [⟨s.timers, s.clock + (Num.ofInt delayMs).timeout⟩]
    timers := s.timers + 1 }

def onApplicationBootstrap (config : RelayConfig) (s : OutboxRelay) : OutboxRelay :=
  let s := { s with bootstrapped := true }
  if config.relayEnabled then s.schedule 0 else s

/- `clearTimeout` of the timer that was armed last; it may have fired already. -/
def onApplicationShutdown (s : OutboxRelay) : OutboxRelay :=
  { s with stopped := true, armed := s.armed.filter fun x => s.timer ≠ some x.id }

/- What is not a statement or a send does not wait. -/
def perform (s : OutboxRelay) : (e : RelayEffect) → Option (OutboxRelay × e.Answer)
  | .service (.enterDrain _) => some ({ s with running := true }, s.running)
  | .service (.leaveDrain _) => some ({ s with running := false }, ())
  | .service .dateNow => some (s, s.clock)
  | .schedule delayMs => some (s.schedule delayMs, ())
  | _ => none

end OutboxRelay

abbrev RelayProcess := Process OutboxRelay Caller RelayEffect RelayEffect.Answer Err (Option Nat)

def relay (config : RelayConfig) (replica : Replica) :
    Runtime OutboxRelay Caller RelayEffect RelayEffect.Answer Err (Option Nat) where
  code := Caller.code config replica
  perform _ := OutboxRelay.perform

/-- The database and the broker may answer anything, at any time. -/
inductive Act where
  | pass (d : Time)
  | bootstrap
  | fire (timer : Nat)
  | drain
  | resume (task : Nat) (answer : (e : RelayEffect) → Except Err e.Answer)
  | shutdown

def step (config : RelayConfig) (replica : Replica) (p : RelayProcess) : Act → Option RelayProcess
  | .pass d => some ⟨{ p.state with clock := p.state.clock + d }, p.tasks⟩
  | .bootstrap =>
    if p.state.bootstrapped then none
    else some ⟨p.state.onApplicationBootstrap config, p.tasks⟩
  | .fire timer =>
    if p.state.armed.any fun x => x.id == timer && decide (x.due ≤ p.state.clock) then
      some ((relay config replica).start .tick
        ⟨{ p.state with armed := p.state.armed.filter fun x => x.id ≠ timer }, p.tasks⟩)
    else none
  | .drain => some ((relay config replica).start .drain p)
  | .resume task answer => (relay config replica).resume task answer p
  | .shutdown => some ⟨p.state.onApplicationShutdown, p.tasks⟩

def constructed (now : Time) : RelayProcess := ⟨{ clock := now }, []⟩

inductive Later (config : RelayConfig) (replica : Replica) (p : RelayProcess) :
    RelayProcess → Prop where
  | refl : Later config replica p p
  | step {q r : RelayProcess} {a : Act} : Later config replica p q →
      step config replica q a = some r → Later config replica p r

theorem Later.of_run {config : RelayConfig} {replica : Replica} {acts : List Act}
    {p q r : RelayProcess} (later : Later config replica p q)
    (h : acts.foldlM (Outbox.step config replica) q = some r) : Later config replica p r := by
  induction acts generalizing q with
  | nil => cases Option.some.inj h; exact later
  | cons a acts ih =>
    obtain ⟨q', hq, rest⟩ := Option.bind_eq_some_iff.mp h
    exact ih (later.step hq) rest

/- What a drain asks for between its first look at `running` and the reset of it. -/
def RelayEffect.works : RelayEffect → Bool
  | .service (.enterDrain _) => false
  | .service (.leaveDrain _) => false
  | .service _ => true
  | .schedule _ => false

def inBody {α : Type} : Script α → Bool
  | .call e _ => e.works
  | _ => false

def bodies (p : RelayProcess) : Nat := p.tasks.countP fun x => inBody x.2

def executing (p : RelayProcess) : Nat := p.waiting (· == .tick)

def started (p : RelayProcess) : Nat := p.called (· == .tick)

variable {config : RelayConfig} {replica : Replica}

theorem transaction_works :
    (lift (transaction (drainBatch config.toOutboxConfig))).Only fun e => e.works := by
  have batch : (drainBatch config.toOutboxConfig).Only fun e => (RelayEffect.service e).works := by
    refine only_mono (fun e drains => ?_) drainBatch_drains
    cases e <;> first | rfl | exact drains.elim
  refine only_translate (only_handle ?_ fun x => ?_)
  · refine only_bind ((only_await _).mpr rfl) fun _ => only_bind batch fun result => ?_
    exact only_bind ((only_await _).mpr rfl) fun _ => trivial
  · refine only_bind (only_handle ((only_await _).mpr rfl) fun _ => trivial) fun _ => trivial

def Ended {α : Type} (rest : Script α) : Prop := rest.waits = false

def Rearms {α : Type} (rest : Script α) : Prop :=
  ∃ delayMs k, rest = call (.schedule delayMs) k ∧ Ended (k (.ok ()))

def Caller.after {α : Type} : Caller → Script α → Prop
  | tick => Rearms
  | drain => Ended

/-- Inside the body of a drain. -/
abbrev Inside {α : Type} (replica : Replica) (after : Script α → Prop) : Script α → Prop :=
  Until (fun e => e.works) (.service (.leaveDrain replica)) after

theorem drain_enters : ∃ k, drain config replica = call (.service (.enterDrain replica)) k ∧
    k (.ok true) = done 0 ∧ Inside replica Ended (k (.ok false)) := by
  refine ⟨_, rfl, rfl, ?_⟩
  have body : Inside replica Ended (Prog.ensure
      (lift (transaction (drainBatch config.toOutboxConfig)))
      (lift (ask (.leaveDrain replica)))) :=
    until_ensure transaction_works fun r => .leaves fun left => by cases left <;> cases r <;> rfl
  have same : lift (Prog.ensure (transaction (drainBatch config.toOutboxConfig))
      (ask (.leaveDrain replica))) = _ := translate_ensure ..
  exact (same ▸ body : Inside replica Ended (lift _))

def Caller.finish (config : RelayConfig) : Caller → Script Nat → Script (Option Nat)
  | tick, rest =>
    (tryCatch
      (rest >>= fun published => schedule (if 0 < published then 0 else config.pollIntervalMs))
      fun _ => schedule config.pollIntervalMs) >>= fun _ => done none
  | drain, rest => rest >>= fun published => done (some published)

theorem code_finish (kind : Caller) :
    kind.code config replica = kind.finish config (drain config replica) := by
  cases kind <;> rfl

theorem finish_call (kind : Caller) (e : RelayEffect) (k : Except Err e.Answer → Script Nat) :
    kind.finish config (call e k) = call e fun r => kind.finish config (k r) := by
  cases kind <;> rfl

theorem finish_ended {rest : Script Nat} (kind : Caller) (ended : Ended rest) :
    kind.after (kind.finish config rest) := by
  cases rest with
  | call e k => cases ended
  | done n =>
    cases kind with
    | tick => exact ⟨_, _, rfl, rfl⟩
    | drain => rfl
  | fail x =>
    cases kind with
    | tick => exact ⟨_, _, rfl, rfl⟩
    | drain => rfl

/-- A call of `drainOnce` asks for the flag. Where it is set the caller is done, else it is inside
until it resets the flag. -/
theorem code_enters (kind : Caller) : ∃ k,
    kind.code config replica = call (.service (.enterDrain replica)) k ∧
      kind.after (k (.ok true)) ∧ Inside replica kind.after (k (.ok false)) := by
  obtain ⟨k, entered, skipped, inside⟩ := @drain_enters config replica
  refine ⟨fun r => kind.finish config (k r), ?_, ?_, ?_⟩
  · rw [code_finish, entered, finish_call]
  · exact finish_ended kind (by rw [skipped]; rfl)
  · exact until_through inside (finish_call kind) fun rest => finish_ended kind

def Halts (replica : Replica) (kind : Caller) (rest : Script (Option Nat)) : Prop :=
  ∃ e k, rest = call e k ∧ e.works ∧ ∀ r, Inside replica kind.after (k r)

def Caller.leaves (s s' : OutboxRelay) : Caller → Prop
  | tick => ∃ delayMs, s' = s.schedule delayMs
  | drain => s' = s

variable {kind : Caller} {i : Nat} {s s' : OutboxRelay} {rest : Script (Option Nat)}
  {p q : RelayProcess}

theorem after_runs (after : kind.after rest) :
    let r := (relay config replica).runSync i rest s
    Ended r.2 ∧ kind.leaves s r.1 := by
  cases kind with
  | drain =>
    cases rest with
    | call e k => cases after
    | done n => exact ⟨rfl, rfl⟩
    | fail x => exact ⟨rfl, rfl⟩
  | tick =>
    obtain ⟨delayMs, k, rfl, ended⟩ := after
    have armed : (relay config replica).runSync i (call (.schedule delayMs) k) s =
        (relay config replica).runSync i (k (.ok ())) (s.schedule delayMs) :=
      Runtime.runSync_once rfl
    rw [armed]
    cases left : k (.ok ()) with
    | call e k => exact absurd ended (by rw [left]; exact nofun)
    | done n => exact ⟨rfl, delayMs, rfl⟩
    | fail x => exact ⟨rfl, delayMs, rfl⟩

/-- A body halts at the next statement, or it is over and the flag is reset. -/
theorem inside_runs (inside : Inside replica kind.after rest) :
    let r := (relay config replica).runSync i rest s
    (r.1 = s ∧ Halts replica kind r.2) ∨
      (Ended r.2 ∧ kind.leaves { s with running := false } r.1) := by
  induction inside with
  | @works e k working within ih =>
    cases performed : s.perform e with
    | none =>
      have waits := Runtime.runSync_await (m := relay config replica) (i := i) (k := k) performed
      rw [waits]
      exact .inl ⟨rfl, e, k, rfl, working, within⟩
    | some answer =>
      obtain ⟨s', a⟩ := answer
      have same : s' = s := by
        unfold OutboxRelay.perform at performed
        split at performed
        · cases working
        · cases working
        · cases performed; rfl
        · cases working
        · cases performed
      have goes := Runtime.runSync_once (m := relay config replica) (i := i) (k := k) performed
      rw [goes, same]
      exact ih (.ok a)
  | @leaves k left =>
    have reset : (relay config replica).runSync i (call (.service (.leaveDrain replica)) k) s =
        (relay config replica).runSync i (k (.ok ())) { s with running := false } :=
      Runtime.runSync_once rfl
    rw [reset]
    exact .inr (after_runs (left (.ok ())))

theorem code_runs (kind : Caller) :
    let r := (relay config replica).runSync i (kind.code config replica) s
    (s.running = false ∧ r.1 = { s with running := true } ∧ Halts replica kind r.2) ∨
      (Ended r.2 ∧ kind.leaves s r.1) := by
  obtain ⟨k, entered, skipped, inside⟩ := @code_enters config replica kind
  have goes : (relay config replica).runSync i (kind.code config replica) s =
      (relay config replica).runSync i (k (.ok s.running)) { s with running := true } :=
    entered ▸ Runtime.runSync_once rfl
  rw [goes]
  cases flag : s.running with
  | true =>
    have same : { s with running := true } = s := by rw [← flag]
    rw [same]
    exact .inr (after_runs skipped)
  | false =>
    have same : { s with running := false } = s := by rw [← flag]
    rcases inside_runs inside with halts | left
    · exact .inl ⟨rfl, halts⟩
    · have leaves : kind.leaves { s with running := false } _ := left.2
      rw [same] at leaves
      exact .inr ⟨left.1, leaves⟩

/-- What holds of the timers beside `ticks` executing ticks. -/
structure Looping (config : RelayConfig) (s : OutboxRelay) (ticks : Nat) : Prop where
  last : ∀ x ∈ s.armed, s.timer = some x.id
  quiet : s.stopped = true → s.armed = []
  one : s.stopped = false →
    s.armed.length + ticks = if s.bootstrapped && config.relayEnabled then 1 else 0

namespace Looping

variable {ticks : Nat}

theorem congr (h : Looping config s ticks) (last : s'.timer = s.timer) (armed : s'.armed = s.armed)
    (stopped : s'.stopped = s.stopped) (booted : s'.bootstrapped = s.bootstrapped) :
    Looping config s' ticks where
  last := by rw [armed, last]; exact h.last
  quiet := by rw [armed, stopped]; exact h.quiet
  one := by rw [armed, stopped, booted]; exact h.one

/-- A tick that ends arms the next timer. -/
theorem schedule (h : Looping config s (ticks + 1)) (delayMs : Int) :
    Looping config (s.schedule delayMs) ticks := by
  cases stop : s.stopped with
  | true =>
    have same : s.schedule delayMs = s := by simp [OutboxRelay.schedule, stop]
    rw [same]
    exact ⟨h.last, h.quiet, fun going => absurd (stop.symm.trans going) (by decide)⟩
  | false =>
    have one := h.one stop
    have none_armed : s.armed = [] := by
      refine List.eq_nil_of_length_eq_zero ?_
      split at one <;> omega
    constructor
    · simp [OutboxRelay.schedule, stop, none_armed]
    · simp [OutboxRelay.schedule, stop]
    · simpa [OutboxRelay.schedule, stop, none_armed, Nat.add_comm] using one

theorem leaves (h : Looping config s (ticks + if kind == .tick then 1 else 0))
    (left : kind.leaves s s') : Looping config s' ticks := by
  cases kind with
  | tick =>
    obtain ⟨delayMs, rfl⟩ := left
    exact h.schedule delayMs
  | drain =>
    cases left
    exact h

/-- The timer that fires was the only one. -/
theorem fire (h : Looping config s ticks) {x : Timer} (armed : x ∈ s.armed) :
    Looping config { s with armed := s.armed.filter fun y => y.id ≠ x.id } (ticks + 1) := by
  have going : s.stopped = false := by
    cases stop : s.stopped with
    | false => rfl
    | true => rw [h.quiet stop] at armed; cases armed
  have one := h.one going
  have alone : s.armed = [x] := by
    have counted := List.length_pos_of_mem armed
    obtain ⟨y, only⟩ := List.length_eq_one_iff.mp (by split at one <;> omega : s.armed.length = 1)
    rw [only] at armed ⊢
    rw [List.mem_singleton.mp armed]
  constructor
  · simp [alone]
  · simp [alone]
  · intro _
    rw [alone] at one
    simpa [alone, Nat.add_comm] using one

theorem bootstrap (h : Looping config s ticks) (booting : s.bootstrapped = false) :
    Looping config (s.onApplicationBootstrap config) ticks := by
  unfold OutboxRelay.onApplicationBootstrap
  cases enabled : config.relayEnabled with
  | false =>
    refine ⟨h.last, h.quiet, fun going => ?_⟩
    simpa [booting, enabled] using h.one going
  | true =>
    have ready : Looping config { s with bootstrapped := true } (ticks + 1) := by
      refine ⟨h.last, h.quiet, fun going => ?_⟩
      have none_yet := h.one going
      simp only [booting, Bool.false_and, Bool.false_eq_true, if_false] at none_yet
      simp only [enabled, Bool.true_and, if_true]
      omega
    exact ready.schedule 0

/-- The timer that was armed last is the only one there may be. -/
theorem shutdown (h : Looping config s ticks) : Looping config s.onApplicationShutdown ticks := by
  have cleared : s.onApplicationShutdown.armed = [] := by
    refine List.filter_eq_nil_iff.mpr fun x mem => ?_
    simp [h.last x mem]
  constructor
  · simp [cleared]
  · exact fun _ => cleared
  · exact fun going => absurd going (by simp [OutboxRelay.onApplicationShutdown])

end Looping

/-- What holds at every rest point of the process. -/
structure Sound (config : RelayConfig) (replica : Replica) (p : RelayProcess) : Prop where
  inside : ∀ x ∈ p.tasks, x.2.waits = true → Halts replica x.1 x.2
  body : p.waiting (fun _ => true) = if p.state.running then 1 else 0
  loop : Looping config p.state (executing p)

@[simp] theorem schedule_running (delayMs : Int) : (s.schedule delayMs).running = s.running := by
  unfold OutboxRelay.schedule
  split <;> rfl

@[simp] theorem schedule_stopped (delayMs : Int) : (s.schedule delayMs).stopped = s.stopped := by
  unfold OutboxRelay.schedule
  split <;> rfl

@[simp] theorem bootstrap_running :
    (s.onApplicationBootstrap config).running = s.running := by
  unfold OutboxRelay.onApplicationBootstrap
  split <;> simp

@[simp] theorem bootstrap_stopped :
    (s.onApplicationBootstrap config).stopped = s.stopped := by
  unfold OutboxRelay.onApplicationBootstrap
  split <;> simp

theorem Caller.leaves.running (left : kind.leaves s s') : s'.running = s.running := by
  cases kind with
  | tick =>
    obtain ⟨delayMs, rfl⟩ := left
    exact schedule_running delayMs
  | drain => rw [left]

theorem Caller.leaves.stopped (left : kind.leaves s s') : s'.stopped = s.stopped := by
  cases kind with
  | tick =>
    obtain ⟨delayMs, rfl⟩ := left
    exact schedule_stopped delayMs
  | drain => rw [left]

theorem Halts.waits (h : Halts replica kind rest) : rest.waits = true := by
  obtain ⟨e, k, rfl, -, -⟩ := h
  rfl

theorem start_sound (kind : Caller)
    (inside : ∀ x ∈ p.tasks, x.2.waits = true → Halts replica x.1 x.2)
    (body : p.waiting (fun _ => true) = if p.state.running then 1 else 0)
    (loop : Looping config p.state (executing p + if kind == .tick then 1 else 0)) :
    Sound config replica ((relay config replica).start kind p) := by
  have ran := @code_runs config replica p.tasks.length p.state kind
  have all : Process.waiting (fun _ => true) ((relay config replica).start kind p) = _ :=
    Runtime.waiting_start kind
  have ticks : Process.waiting (· == .tick) ((relay config replica).start kind p) = _ :=
    Runtime.waiting_start kind
  have code : (relay config replica).code kind = kind.code config replica := rfl
  unfold Runtime.start at all ticks ⊢
  rw [code] at all ticks ⊢
  generalize (relay config replica).runSync p.tasks.length (kind.code config replica) p.state = r
    at ran all ticks ⊢
  obtain ⟨s', rest⟩ := r
  rcases ran with ⟨free, rfl, halts⟩ | ⟨ended, left⟩
  · constructor
    · intro x mem
      rcases List.mem_append.mp mem with old | new
      · exact inside x old
      · rw [List.mem_singleton.mp new]
        exact fun _ => halts
    · rw [all, body, halts.waits, free]
      rfl
    · rw [executing, ticks, halts.waits, Bool.and_true]
      exact loop.congr rfl rfl rfl rfl
  · constructor
    · intro x mem waits
      rcases List.mem_append.mp mem with old | new
      · exact inside x old waits
      · rw [List.mem_singleton.mp new] at waits
        exact absurd (ended.symm.trans waits) (by decide)
    · rw [all, body, ended, left.running]
      rfl
    · rw [executing, ticks, ended, Bool.and_false]
      exact loop.leaves left

theorem Sound.resume (h : Sound config replica p) {answer : (e : RelayEffect) → Except Err e.Answer}
    (hq : (relay config replica).resume i answer p = some q) : Sound config replica q := by
  obtain ⟨kind, e, k, task, state, tasks⟩ := Runtime.resume_some hq
  obtain ⟨e, k, same, working, within⟩ := h.inside _ (List.mem_of_getElem? task) rfl
  cases same
  have ran := @inside_runs config _ _ i p.state _ (within (answer e))
  have all := Runtime.waiting_set (fun _ => true) task q.state
  have ticks := Runtime.waiting_set (· == .tick) task q.state
  have busy : p.state.running = true := by
    have counted := all (.done none)
    have body := h.body
    by_contra idle
    rw [if_neg idle] at body
    simp only [if_true, Prog.waits_done, Bool.and_false, Bool.false_eq_true, if_false] at counted
    omega
  obtain ⟨state', tasks'⟩ := q
  dsimp only at state tasks
  generalize (relay config replica).runSync i (k (answer e)) p.state = r at ran state tasks
  obtain ⟨s', rest⟩ := r
  subst state tasks
  have body := h.body
  rw [busy] at body
  rcases ran with ⟨same, halts⟩ | ⟨ended, left⟩
  · cases same
    constructor
    · intro x mem
      rcases List.mem_or_eq_of_mem_set mem with old | new
      · exact h.inside x old
      · rw [new]
        exact fun _ => halts
    · have counted := all rest
      rw [halts.waits] at counted
      rw [busy]
      simp only [Bool.and_self, if_true] at counted body ⊢
      omega
    · have counted := ticks rest
      rw [halts.waits, Bool.and_true] at counted
      exact (Nat.add_right_cancel counted : executing _ = executing p) ▸ h.loop
  · constructor
    · intro x mem waits
      rcases List.mem_or_eq_of_mem_set mem with old | new
      · exact h.inside x old waits
      · rw [new] at waits
        exact absurd (ended.symm.trans waits) (by decide)
    · have counted := all rest
      rw [show rest.waits = false from ended] at counted
      rw [left.running]
      simp only [Bool.and_false, if_true] at counted body ⊢
      omega
    · have counted := ticks rest
      rw [show rest.waits = false from ended, Bool.and_false] at counted
      refine Looping.leaves ?_ left
      have before : Looping config { p.state with running := false } (executing p) :=
        h.loop.congr rfl rfl rfl rfl
      exact (counted : executing _ + _ = executing p) ▸ before

theorem constructed_sound (now : Time) : Sound config replica (constructed now) where
  inside := by simp [constructed]
  body := rfl
  loop := ⟨by simp [constructed], fun _ => rfl, fun _ => rfl⟩

theorem Sound.step {a : Act} (h : Sound config replica p) (hq : step config replica p a = some q) :
    Sound config replica q := by
  cases a with
  | pass d =>
    cases Option.some.inj hq
    exact ⟨h.inside, h.body, h.loop.congr rfl rfl rfl rfl⟩
  | bootstrap =>
    simp only [Outbox.step] at hq
    split at hq
    · cases hq
    · rename_i booting
      cases Option.some.inj hq
      refine ⟨h.inside, ?_, h.loop.bootstrap (Bool.not_eq_true _ ▸ booting)⟩
      rw [bootstrap_running]
      exact h.body
  | fire timer =>
    simp only [Outbox.step] at hq
    split at hq
    · rename_i due
      cases Option.some.inj hq
      obtain ⟨x, armed, fires⟩ := List.any_eq_true.mp due
      obtain rfl : x.id = timer := by simpa using (Bool.and_eq_true_iff.mp fires).1
      exact start_sound .tick h.inside h.body (h.loop.fire armed)
    · cases hq
  | drain =>
    cases Option.some.inj hq
    exact start_sound .drain h.inside h.body h.loop
  | resume task answer => exact h.resume hq
  | shutdown =>
    cases Option.some.inj hq
    exact ⟨h.inside, h.body, h.loop.shutdown⟩

theorem Later.sound (h : Sound config replica p) (later : Later config replica p q) :
    Sound config replica q := by
  induction later with
  | refl => exact h
  | step _ hr ih => exact ih.step hr

theorem Sound.bodies (h : Sound config replica p) :
    bodies p = if p.state.running then 1 else 0 := by
  rw [← h.body]
  refine List.countP_congr fun x mem => ?_
  constructor
  · intro inside
    obtain ⟨kind, rest⟩ := x
    cases rest with
    | call e k => rfl
    | done a => cases inside
    | fail x => cases inside
  · intro waits
    obtain ⟨e, k, same, working, -⟩ := h.inside x mem waits
    rw [same]
    exact working

/-- A process that has been shut down fires no timer, and what goes on in it arms none. -/
theorem Sound.stopped {a : Act} (h : Sound config replica p) (stopped : p.state.stopped = true)
    (hq : Outbox.step config replica p a = some q) :
    q.state.stopped = true ∧ started q = started p := by
  cases a with
  | pass d =>
    cases Option.some.inj hq
    exact ⟨stopped, rfl⟩
  | bootstrap =>
    simp only [Outbox.step] at hq
    split at hq
    · cases hq
    · cases Option.some.inj hq
      exact ⟨bootstrap_stopped.trans stopped, rfl⟩
  | fire timer =>
    simp only [Outbox.step, h.loop.quiet stopped] at hq
    cases hq
  | drain =>
    cases Option.some.inj hq
    have called : started ((relay config replica).start Caller.drain p) = _ :=
      Runtime.called_start Caller.drain
    refine ⟨?_, called⟩
    rcases @code_runs config replica p.tasks.length p.state .drain with ⟨-, entered, -⟩ | ⟨-, left⟩
    · exact (congrArg OutboxRelay.stopped entered).trans stopped
    · exact (Caller.leaves.stopped left).trans stopped
  | resume task answer =>
    obtain ⟨kind, e, k, found, state, -⟩ := Runtime.resume_some hq
    obtain ⟨e, k, same, working, within⟩ := h.inside _ (List.mem_of_getElem? found) rfl
    cases same
    refine ⟨?_, Runtime.called_resume hq⟩
    rw [state]
    rcases @inside_runs config _ _ task p.state _ (within (answer e)) with ⟨same, -⟩ | ⟨-, left⟩
    · rw [same]
      exact stopped
    · exact left.stopped.trans stopped
  | shutdown =>
    cases Option.some.inj hq
    exact ⟨rfl, rfl⟩

theorem Later.stopped (h : Sound config replica p) (stopped : p.state.stopped = true)
    (later : Later config replica p q) : q.state.stopped = true ∧ started q = started p := by
  induction later with
  | refl => exact ⟨stopped, rfl⟩
  | step earlier hr ih =>
    obtain ⟨still, same⟩ := (earlier.sound h).stopped ih.1 hr
    exact ⟨still, same.trans ih.2⟩

/-- The relay loop of a process that may be asked for drains at any time. One body at most runs, and
`running` tells whether one does. Between the bootstrap and the shutdown there is one armed timer or
one tick. After the shutdown there is no timer, and no tick starts. -/
theorem relay_loop (now : Time) (enabled : config.relayEnabled = true)
    (reached : Later config replica (constructed now) p) :
    (bodies p ≤ 1 ∧ (p.state.running = false ↔ bodies p = 0)) ∧
      (p.state.bootstrapped = true → p.state.stopped = false →
        p.state.armed.length + executing p = 1) ∧
      (p.state.stopped = true → ∀ q, Later config replica p q →
        q.state.armed = [] ∧ started q = started p) := by
  have h := reached.sound (constructed_sound now)
  refine ⟨?_, ?_, ?_⟩
  · rw [h.bodies]
    cases p.state.running <;> simp
  · intro booted going
    have one := h.loop.one going
    rwa [booted, enabled] at one
  · intro stopped q later
    have after := later.stopped h stopped
    exact ⟨(later.sound h).loop.quiet after.1, after.2⟩

/- A tick that waits for its BEGIN, and a manual drain that is turned away meanwhile. -/
theorem relay_loop_skips : ∃ p : RelayProcess,
    [.bootstrap, .pass 1, .fire 0, .drain].foldlM (step {} 0) (constructed 0) = some p ∧
      (bodies p ≤ 1 ∧ (p.state.running = false ↔ bodies p = 0)) ∧
      (p.state.bootstrapped = true → p.state.stopped = false →
        p.state.armed.length + executing p = 1) ∧
      (p.state.stopped = true → ∀ q, Later {} 0 p q →
        q.state.armed = [] ∧ started q = started p) := by
  obtain ⟨p, run⟩ : ∃ p, [.bootstrap, .pass 1, .fire 0, .drain].foldlM (step {} 0)
      (constructed 0) = some p := ⟨_, rfl⟩
  exact ⟨p, run, relay_loop 0 rfl (Later.of_run .refl run)⟩

end Overbook.Outbox
