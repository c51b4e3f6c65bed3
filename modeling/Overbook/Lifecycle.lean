import Overbook.Async.Program
import Overbook.Config
import Overbook.JsNumber

/-! The end of one process. Two sets of listeners answer a signal: those that `enableShutdownHooks`
has registered, and those of `main.ts`. -/
namespace Overbook.Lifecycle

open Async Prog

inductive Signal where
  | SIGTERM
  | SIGINT
  deriving DecidableEq

inductive Hook where
  | kafka
  | redis
  | consumer
  | relay
  deriving DecidableEq

inductive Listener where
  | nest
  | main
  deriving DecidableEq

/- `setTimeout` answers when the timer is due. -/
inductive Effect where
  | beginDraining
  | setTimeout (ms : Int)
  | elapsed (due : Time)
  | stopAccepting
  | requestsDone
  | onApplicationShutdown (hook : Hook)
  | hookDone
  | exit
  deriving DecidableEq

abbrev Effect.Answer : Effect → Type
  | .setTimeout _ => Time
  | _ => Unit

abbrev Script (α : Type) := Prog Effect Effect.Answer Err α

abbrev ask (e : Effect) : Script e.Answer := await e

/-- `app.close`: the server stops accepting at once and finishes what is in flight; then the hooks
run. The listeners of `enableShutdownHooks` do the same. -/
def close (hooks : List Hook) : Script Unit := do
  ask .stopAccepting
  ask .requestsDone
  hooks.forM fun hook => do
    ask (.onApplicationShutdown hook)
    ask .hookDone

def shutdown (drainMs : Int) (hooks : List Hook) : Script Unit := do
  ask .beginDraining
  let due ← ask (.setTimeout drainMs)
  ask (.elapsed due)
  close hooks
  ask .exit

def Listener.code (drainMs : Int) (hooks : List Hook) : Listener → Script Unit
  | nest => close hooks
  | main => shutdown drainMs hooks

structure Done where
  listener : Listener
  effect : Effect
  time : Time
  deriving DecidableEq

structure Process where
  clock : Time
  drainingSince : Option Time
  listeners : Signal → List Listener
  tasks : List (Listener × Script Unit)
  log : List Done
  received : List Signal
  exited : Bool

namespace Process

def did (l : Listener) (e : Effect) (p : Process) : Process :=
  { p with log := p.log ++ [⟨l, e, p.clock⟩] }

/- `LifecycleService.beginDraining`: the second call changes nothing. -/
def beginDraining (p : Process) : Process :=
  { p with drainingSince := p.drainingSince.or (some p.clock) }

/- A call that returns at once; the others are awaited. -/
def perform (l : Listener) (p : Process) : (e : Effect) → Option (Process × e.Answer)
  | .beginDraining => some (p.beginDraining.did l .beginDraining, ())
  | .setTimeout ms => some (p, p.clock + (Num.ofInt ms).timeout)
  | .stopAccepting => some (p.did l .stopAccepting, ())
  | .onApplicationShutdown hook => some (p.did l (.onApplicationShutdown hook), ())
  | .exit => some ({ p with exited := true }, ())
  | _ => none

/-- Up to the next await nothing else runs. -/
def runSync (l : Listener) : Script Unit → Process → Process × Script Unit
  | .done a, p => (p, .done a)
  | .fail x, p => (p, .fail x)
  | .call e k, p =>
    match p.perform l e with
    | some (q, a) => runSync l (k (.ok a)) q
    | none => (p, .call e k)

def call (drainMs : Int) (hooks : List Hook) (p : Process) (l : Listener) : Process :=
  let (q, rest) := runSync l (l.code drainMs hooks) p
  { q with tasks := q.tasks ++ [(l, rest)] }

/- The listeners of `main.ts` are registered by `process.once`. -/
def receive (signal : Signal) (p : Process) : Process :=
  { p with
    listeners :=
      Function.update p.listeners signal ((p.listeners signal).filter (· ≠ .main))
    received := p.received ++ [signal] }

/- The listeners of a signal run in the order of their registration. -/
def emit (drainMs : Int) (hooks : List Hook) (signal : Signal) (p : Process) : Process :=
  (p.listeners signal).foldl (call drainMs hooks) (p.receive signal)

def answers (p : Process) : Effect → Bool
  | .elapsed due => due ≤ p.clock
  | .requestsDone => true
  | .hookDone => true
  | _ => false

end Process

/- The work that is awaited may be rejected, a timer may not. -/
inductive Act where
  | tick (d : Time)
  | signal (s : Signal)
  | resume (task : Nat)
  | reject (task : Nat) (error : Err)

def Process.goOn (p : Process) (i : Nat) (answer : (e : Effect) → Option (Except Err e.Answer)) :
    Option Process :=
  match p.tasks[i]? with
  | some (l, .call e k) =>
    if p.answers e then
      (answer e).map fun r =>
        let (q, rest) := runSync l (k r) p
        { q with tasks := q.tasks.set i (l, rest) }
    else none
  | _ => none

def resolved : (e : Effect) → Option (Except Err e.Answer)
  | .elapsed _ => some (.ok ())
  | .requestsDone => some (.ok ())
  | .hookDone => some (.ok ())
  | _ => none

def rejected (error : Err) : (e : Effect) → Option (Except Err e.Answer)
  | .requestsDone => some (.error error)
  | .hookDone => some (.error error)
  | _ => none

def step (drainMs : Int) (hooks : List Hook) (p : Process) (a : Act) : Option Process :=
  if p.exited then none
  else match a with
    | .tick d => some { p with clock := p.clock + d }
    | .signal s => some (p.emit drainMs hooks s)
    | .resume i => p.goOn i resolved
    | .reject i error => p.goOn i (rejected error)

/-- The state at the end of `bootstrap`: `enableShutdownHooks` comes first. -/
def started (now : Time) : Process :=
  ⟨now, none, fun _ => [.nest, .main], [], [], [], false⟩

inductive Reach (drainMs : Int) (hooks : List Hook) (now : Time) : Process → Prop where
  | refl : Reach drainMs hooks now (started now)
  | step {p q : Process} {a : Act} : Reach drainMs hooks now p → step drainMs hooks p a = some q →
      Reach drainMs hooks now q

def Effect.closes : Effect → Bool
  | .stopAccepting => true
  | .onApplicationShutdown _ => true
  | _ => false

/-- Nothing is closed earlier than `drainMs` after readiness has begun to fail. -/
def ClosesDrained (drainMs : Int) (p : Process) : Prop :=
  ∀ x ∈ p.log, x.effect.closes = true → ∃ d, p.drainingSince = some d ∧ (d : Int) + drainMs ≤ x.time

def AfterWait (wait d clock : Nat) (rest : Script Unit) : Prop :=
  (∃ due k, rest = .call (.elapsed due) k ∧ d + wait ≤ due) ∨ d + wait ≤ clock

/-- A process that has received its first signal at `d`. The listener of Nest has come first. -/
structure Draining (wait d : Nat) (p : Process) : Prop where
  since : p.drainingSince = some d
  past : d ≤ p.clock
  first : [⟨.nest, .stopAccepting, d⟩, ⟨.main, .beginDraining, d⟩] <+: p.log
  order : ∀ x ∈ p.log, d ≤ x.time
  waits : ∀ x ∈ p.log, x.listener = .main → x.effect.closes = true → d + wait ≤ x.time
  tasks : ∀ rest, (.main, rest) ∈ p.tasks → AfterWait wait d p.clock rest

structure Unsignalled (p : Process) : Prop where
  log : p.log = []
  since : p.drainingSince = none
  tasks : p.tasks = []

structure Inv (wait : Nat) (p : Process) : Prop where
  registered : p.received = [] → ∀ s, p.listeners s = [.nest, .main]
  quiet : p.received = [] → Unsignalled p
  drained : p.received ≠ [] → ∃ d, Draining wait d p

variable {drainMs : Int} {hooks : List Hook} {wait d : Nat} {p q : Process}

theorem call_nest (drainMs : Int) (hooks : List Hook) (p : Process) :
    ∃ k, p.call drainMs hooks .nest =
      { p.did .nest .stopAccepting with tasks := p.tasks ++ [(.nest, .call .requestsDone k)] } :=
  ⟨_, rfl⟩

theorem call_main (drainMs : Int) (hooks : List Hook) (p : Process) :
    ∃ k, p.call drainMs hooks .main =
      { p.beginDraining.did .main .beginDraining with
        tasks := p.tasks ++
          [(.main, .call (.elapsed (p.clock + (Num.ofInt drainMs).timeout)) k)] } :=
  ⟨_, rfl⟩

theorem Draining.did (h : Draining wait d p) (l : Listener) (e : Effect)
    (late : l = .main → e.closes = true → d + wait ≤ p.clock) : Draining wait d (p.did l e) := by
  constructor
  · exact h.since
  · exact h.past
  · exact h.first.trans (List.prefix_append ..)
  · intro x hx
    rcases List.mem_append.mp hx with old | new
    · exact h.order x old
    · cases List.mem_singleton.mp new
      exact h.past
  · intro x hx own closes
    rcases List.mem_append.mp hx with old | new
    · exact h.waits x old own closes
    · cases List.mem_singleton.mp new
      exact late own closes
  · exact h.tasks

theorem Draining.again (h : Draining wait d p) : p.beginDraining = p := by
  unfold Process.beginDraining
  rw [h.since]
  exact congrArg (fun since => { p with drainingSince := since }) h.since.symm

theorem Draining.newTask (h : Draining wait d p) (l : Listener) (rest : Script Unit)
    (own : l = .main → AfterWait wait d p.clock rest) :
    Draining wait d { p with tasks := p.tasks ++ [(l, rest)] } := by
  refine { h with tasks := fun rest' hr => ?_ }
  rcases List.mem_append.mp hr with old | new
  · exact h.tasks rest' old
  · obtain ⟨rfl, rfl⟩ := Prod.mk.inj (List.mem_singleton.mp new)
    exact own rfl

theorem Draining.call (h : Draining (Num.ofInt drainMs).timeout d p) (l : Listener) :
    Draining (Num.ofInt drainMs).timeout d (p.call drainMs hooks l) := by
  cases l with
  | nest =>
    obtain ⟨k, called⟩ := call_nest drainMs hooks p
    rw [called]
    exact (h.did .nest .stopAccepting nofun).newTask .nest _ nofun
  | main =>
    obtain ⟨k, called⟩ := call_main drainMs hooks p
    rw [called, h.again]
    refine (h.did .main .beginDraining nofun).newTask .main _ fun _ => .inl ⟨_, k, rfl, ?_⟩
    exact Nat.add_le_add_right h.past _

/- The first signal: Nest closes the server, and only then readiness begins to fail. -/
theorem Unsignalled.emit (h : Unsignalled p) :
    Draining (Num.ofInt drainMs).timeout p.clock
      ([.nest, .main].foldl (Process.call drainMs hooks) p) := by
  obtain ⟨k, nest⟩ := call_nest drainMs hooks p
  obtain ⟨k', main⟩ := call_main drainMs hooks (p.call drainMs hooks .nest)
  simp only [List.foldl_cons, List.foldl_nil, main]
  rw [nest]
  constructor
  · simp [Process.did, Process.beginDraining, h.since]
  · exact Nat.le_refl _
  · simp [Process.did, Process.beginDraining, h.log]
  · simp [Process.did, Process.beginDraining, h.log]
  · simp [Process.did, Process.beginDraining, h.log, Effect.closes]
  · simp only [h.tasks, List.nil_append, List.mem_append, List.mem_singleton]
    rintro rest (own | own)
    · cases own
    · cases own
      exact .inl ⟨_, k', rfl, Nat.le_refl _⟩

theorem calls_received (drainMs : Int) (hooks : List Hook) (ls : List Listener) (p : Process) :
    (ls.foldl (Process.call drainMs hooks) p).received = p.received := by
  induction ls generalizing p with
  | nil => rfl
  | cons l ls ih =>
    have one : (p.call drainMs hooks l).received = p.received := by
      cases l with
      | nest =>
        obtain ⟨k, called⟩ := call_nest drainMs hooks p
        rw [called]
        rfl
      | main =>
        obtain ⟨k, called⟩ := call_main drainMs hooks p
        rw [called]
        rfl
    exact (ih _).trans one

theorem Draining.calls (h : Draining (Num.ofInt drainMs).timeout d p) (ls : List Listener) :
    Draining (Num.ofInt drainMs).timeout d (ls.foldl (Process.call drainMs hooks) p) := by
  induction ls generalizing p with
  | nil => exact h
  | cons l ls ih => exact ih (h.call l)

theorem emit_inv (h : Inv (Num.ofInt drainMs).timeout p) (s : Signal) :
    Inv (Num.ofInt drainMs).timeout (p.emit drainMs hooks s) := by
  have received : (p.emit drainMs hooks s).received = p.received ++ [s] :=
    calls_received drainMs hooks (p.listeners s) (p.receive s)
  have signalled : (p.emit drainMs hooks s).received ≠ [] := by simp [received]
  constructor
  · exact fun none => absurd none signalled
  · exact fun none => absurd none signalled
  · intro _
    by_cases first : p.received = []
    · have quiet := h.quiet first
      have unsignalled : Unsignalled (p.receive s) := ⟨quiet.log, quiet.since, quiet.tasks⟩
      refine ⟨p.clock, ?_⟩
      rw [Process.emit, h.registered first]
      exact unsignalled.emit
    · obtain ⟨d, draining⟩ := h.drained first
      have still : Draining (Num.ofInt drainMs).timeout d (p.receive s) := { draining with }
      exact ⟨d, still.calls _⟩

theorem Draining.runSync (h : Draining wait d p) (l : Listener) (script : Script Unit)
    (late : l = .main → d + wait ≤ p.clock) :
    Draining wait d (Process.runSync l script p).1 ∧
      (Process.runSync l script p).1.clock = p.clock ∧
      (Process.runSync l script p).1.received = p.received := by
  induction script generalizing p with
  | done a => exact ⟨h, rfl, rfl⟩
  | fail x => exact ⟨h, rfl, rfl⟩
  | call e k ih =>
    have logged := h.did l e fun own _ => late own
    cases e with
    | beginDraining => exact ih _ (by rw [h.again]; exact logged) (by rw [h.again]; exact late)
    | setTimeout ms => exact ih _ h late
    | stopAccepting => exact ih _ logged late
    | onApplicationShutdown hook => exact ih _ logged late
    | exit => exact ih _ { h with } late
    | _ => exact ⟨h, rfl, rfl⟩

theorem Draining.setTask (h : Draining wait d p) (i : Nat) (l : Listener) (rest : Script Unit)
    (own : l = .main → d + wait ≤ p.clock) :
    Draining wait d { p with tasks := p.tasks.set i (l, rest) } := by
  refine { h with tasks := fun rest' hr => ?_ }
  rcases List.mem_or_eq_of_mem_set hr with old | new
  · exact h.tasks rest' old
  · obtain ⟨rfl, rfl⟩ := Prod.mk.inj new
    exact .inr (own rfl)

/- A task goes on when what it awaits may answer; the timer of `main.ts` has then gone off. -/
theorem Draining.goOn {answer : (e : Effect) → Option (Except Err e.Answer)} {i : Nat}
    (h : Draining wait d p) (went : p.goOn i answer = some q) :
    Draining wait d q ∧ q.received = p.received := by
  unfold Process.goOn at went
  split at went
  · next l e k task =>
    split at went
    · next answers =>
      obtain ⟨r, -, rfl⟩ := Option.map_eq_some_iff.mp went
      have late : l = .main → d + wait ≤ p.clock := by
        rintro rfl
        rcases h.tasks _ (List.mem_of_getElem? task) with ⟨due, k', same, wait⟩ | gone
        · cases same
          exact wait.trans (of_decide_eq_true answers)
        · exact gone
      obtain ⟨draining, clock, received⟩ := h.runSync l (k r) late
      exact ⟨draining.setTask i l _ fun own => clock ▸ late own, received⟩
    · cases went
  · cases went

theorem quiet_goOn {answer : (e : Effect) → Option (Except Err e.Answer)} {i : Nat}
    (h : Unsignalled p) : p.goOn i answer = none := by
  simp [Process.goOn, h.tasks]

theorem goOn_inv {answer : (e : Effect) → Option (Except Err e.Answer)} {i : Nat}
    (h : Inv wait p) (went : p.goOn i answer = some q) : Inv wait q := by
  by_cases first : p.received = []
  · rw [quiet_goOn (h.quiet first)] at went
    cases went
  · obtain ⟨d, draining⟩ := h.drained first
    obtain ⟨still, received⟩ := draining.goOn went
    have signalled : q.received ≠ [] := received ▸ first
    exact ⟨fun none => absurd none signalled, fun none => absurd none signalled,
      fun _ => ⟨d, still⟩⟩

theorem Draining.tick (h : Draining wait d p) (n : Time) :
    Draining wait d { p with clock := p.clock + n } := by
  refine { h with past := h.past.trans (Nat.le_add_right ..), tasks := fun rest hr => ?_ }
  rcases h.tasks rest hr with waiting | gone
  · exact .inl waiting
  · exact .inr (gone.trans (Nat.le_add_right ..))

theorem step_inv {a : Act} (h : Inv (Num.ofInt drainMs).timeout p)
    (st : step drainMs hooks p a = some q) : Inv (Num.ofInt drainMs).timeout q := by
  unfold step at st
  split at st
  · cases st
  · cases a with
    | tick n =>
      cases Option.some.inj st
      constructor
      · exact h.registered
      · exact fun none => { h.quiet none with }
      · intro signalled
        obtain ⟨d, draining⟩ := h.drained signalled
        exact ⟨d, draining.tick n⟩
    | signal s =>
      cases Option.some.inj st
      exact emit_inv h s
    | resume i => exact goOn_inv h st
    | reject i error => exact goOn_inv h st

theorem reach_inv {now : Time} (run : Reach drainMs hooks now p) :
    Inv (Num.ofInt drainMs).timeout p := by
  induction run with
  | refl => exact ⟨fun _ _ => rfl, fun _ => ⟨rfl, rfl, rfl⟩, fun some => absurd rfl some⟩
  | step _ st ih => exact step_inv ih st

/-- The closing that `main.ts` has meant waits: what its own listeners close, they close no earlier
than the timer after readiness has begun to fail. -/
theorem own_close_waits {now : Time} (run : Reach drainMs hooks now p) {x : Done} (hx : x ∈ p.log)
    (own : x.listener = .main) (closes : x.effect.closes = true) :
    ∃ d, p.drainingSince = some d ∧ d + (Num.ofInt drainMs).timeout ≤ x.time := by
  have inv := reach_inv run
  by_cases first : p.received = []
  · rw [(inv.quiet first).log] at hx
    cases hx
  · obtain ⟨d, draining⟩ := inv.drained first
    exact ⟨d, draining.since, draining.waits x hx own closes⟩

/-- After the first signal the server has stopped accepting before readiness has begun to fail, as
the listener of Nest is taken to close it in the call that it gets. -/
theorem server_closed_first {now : Time} (run : Reach drainMs hooks now p)
    (signalled : p.received ≠ []) :
    ∃ d, [⟨.nest, .stopAccepting, d⟩, ⟨.main, .beginDraining, d⟩] <+: p.log := by
  obtain ⟨d, draining⟩ := (reach_inv run).drained signalled
  exact ⟨d, draining.first⟩

/-- In every run in which a signal has been received, everything is closed `drainMs` after readiness
has begun to fail only where no wait is asked for: the listener of Nest closes at once. -/
theorem closes_drained_iff (drainMs : Int) (hooks : List Hook) (now : Time) (p : Process)
    (run : Reach drainMs hooks now p) (signalled : p.received ≠ []) :
    ClosesDrained drainMs p ↔ drainMs ≤ 0 := by
  obtain ⟨d, draining⟩ := (reach_inv run).drained signalled
  constructor
  · intro drained
    have first := draining.first.subset (List.mem_cons_self ..)
    obtain ⟨d', since, le⟩ := drained _ first rfl
    cases Option.some.inj (draining.since.symm.trans since)
    simp only at le
    omega
  · intro nonpos x hx _
    refine ⟨d, draining.since, ?_⟩
    have order : (d : Int) ≤ x.time := Int.ofNat_le.mpr (draining.order x hx)
    omega

/- SIGTERM at time zero, with the configured default of five seconds. -/
def terminated : Process := (started 0).emit 5000 [.redis, .kafka, .consumer, .relay] .SIGTERM

theorem terminated_reach : Reach 5000 [.redis, .kafka, .consumer, .relay] 0 terminated :=
  .step .refl (rfl : step _ _ _ (.signal .SIGTERM) = _)

theorem closes_drained_iff_sigterm : ClosesDrained 5000 terminated ↔ (5000 : Int) ≤ 0 :=
  closes_drained_iff 5000 _ 0 terminated terminated_reach (by decide)

theorem closed_at_once : ∃ p : Process, Reach 5000 [.redis, .kafka, .consumer, .relay] 0 p ∧
    p.received = [.SIGTERM] ∧ ¬ ClosesDrained 5000 p := by
  refine ⟨terminated, terminated_reach, by decide, fun drained => ?_⟩
  have there : (⟨.nest, .stopAccepting, 0⟩ : Done) ∈ terminated.log := by decide
  obtain ⟨d, -, le⟩ := drained _ there rfl
  simp only at le
  omega

end Overbook.Lifecycle
