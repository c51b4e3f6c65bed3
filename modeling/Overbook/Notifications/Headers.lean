import Overbook.Async.Trace
import Overbook.Notifications.Consumer

/-! Which headers wedge a consumer. The stamp of a record drives the loop that waits for it, and
its counter decides when it is given up. -/
namespace Overbook.Notifications

open Async Prog Kafka Floating

def HEARTBEAT_INTERVAL_MS : Num := .fin 3000

structure Turn where
  stopping : Bool
  now : Time

/-- The loop of `waitUntilDue`: the turn in which it returns, if it does within `fuel` turns from
turn `n` on. A failed heartbeat is swallowed. -/
def waitUntilDue (retryAtMs : Num) (turns : Nat → Turn) : Nat → Nat → Option Nat
  | 0, _ => none
  | fuel + 1, n =>
    if (turns n).stopping then some n
    else if due retryAtMs (turns n).now then some n
    else waitUntilDue retryAtMs turns fuel (n + 1)

def delay (retryAtMs : Num) (now : Time) : Num :=
  (retryAtMs.minus (.ofInt now)).min HEARTBEAT_INTERVAL_MS

/-- No shutdown, and from turn to turn the clock advances by the sleep that was asked for. -/
structure Advancing (retryAtMs : Num) (turns : Nat → Turn) : Prop where
  running : ∀ n, (turns n).stopping = false
  slept : ∀ n, (turns n).now + (delay retryAtMs (turns n).now).timeout ≤ (turns (n + 1)).now

/-- The wait ends, and not before the stamp. -/
def Wakes (retryAtMs : Num) : Prop :=
  ∀ turns, Advancing retryAtMs turns → ∃ fuel n, waitUntilDue retryAtMs turns fuel 0 = some n ∧
    ∀ q, retryAtMs = .fin q → q ≤ (turns n).now

variable {retryAtMs : Num} {turns : Nat → Turn}

/- The turn in which the loop returns is one in which the step of the pool may be taken. -/
theorem wait_returns {fuel start n : Nat} (h : waitUntilDue retryAtMs turns fuel start = some n) :
    ((turns n).stopping || due retryAtMs (turns n).now) = true := by
  induction fuel generalizing start with
  | zero => cases h
  | succ fuel ih =>
    simp only [waitUntilDue] at h
    split at h
    · next stopping =>
      cases Option.some.inj h
      simp [stopping]
    · split at h
      · next late =>
        cases Option.some.inj h
        simp [late]
      · exact ih h

theorem wait_refines {fuel n : Nat} {topics : Topics} {t : Tid} {s : Inbox} {replica : Replica}
    (h : waitUntilDue retryAtMs turns fuel 0 = some n)
    (flag : s.stopping replica = (turns n).stopping) :
    exec topics t s (.waitUntilDue replica retryAtMs) (.time (turns n).now) = some (s, .ok ()) := by
  simp [exec, flag, wait_returns h]

theorem wait_ends {m start : Nat} (late : due retryAtMs (turns m).now = true) (le : start ≤ m) :
    ∃ n, waitUntilDue retryAtMs turns (m + 1 - start) start = some n := by
  induction gap : m - start generalizing start with
  | zero =>
    have same : start = m := by omega
    subst same
    rw [Nat.add_sub_cancel_left]
    simp only [waitUntilDue, late]
    split <;> exact ⟨_, rfl⟩
  | succ d ih =>
    have fuel : m + 1 - start = (m + 1 - (start + 1)) + 1 := by omega
    rw [fuel]
    simp only [waitUntilDue]
    split
    · exact ⟨_, rfl⟩
    · split
      · exact ⟨_, rfl⟩
      · exact ih (by omega) (by omega)

/- Every turn takes a millisecond at least. -/
theorem Advancing.later (h : Advancing retryAtMs turns) (n : Nat) : n ≤ (turns n).now := by
  induction n with
  | zero => exact Nat.zero_le _
  | succ n ih =>
    have slept := h.slept n
    have positive := Num.timeout_pos (delay retryAtMs (turns n).now)
    exact Nat.le_trans (Nat.add_le_add ih positive) slept

theorem due_fin {q : Rat} {now : Time} (grained : binary64.Grained q) :
    due (.fin q) now = true ↔ q ≤ now := by
  have whole : binary64.Grained ((now : Int) : Rat) := Format.grained_int (by decide) now
  simpa [due, Num.ofInt] using Num.minus_le_zero grained whole

theorem due_ofInt {stamp now : Time} : due (.ofInt stamp) now = true ↔ stamp ≤ now := by
  have grained : binary64.Grained ((stamp : Int) : Rat) := Format.grained_int (by decide) stamp
  rw [Num.ofInt, due_fin grained]
  exact_mod_cast Iff.rfl

def Endless (retryAtMs : Num) : Prop := retryAtMs = .nan ∨ retryAtMs = .inf

theorem endless_undue (h : Endless retryAtMs) (now : Time) : due retryAtMs now = false := by
  rcases h with rfl | rfl <;> rfl

theorem endless_waits (h : Endless retryAtMs) (running : ∀ n, (turns n).stopping = false)
    (fuel start : Nat) : waitUntilDue retryAtMs turns fuel start = none := by
  induction fuel generalizing start with
  | zero => rfl
  | succ fuel ih => simp [waitUntilDue, running, endless_undue h, ih]

def heartbeats (n : Nat) : Turn := ⟨false, 3000 * n⟩

theorem heartbeats_advance (h : Endless retryAtMs) : Advancing retryAtMs heartbeats := by
  have short : ∀ now, (delay retryAtMs now).timeout ≤ 3000 := by
    intro now
    rcases h with rfl | rfl
    · exact (by decide : Num.nan.timeout ≤ 3000)
    · exact (by decide : (Num.inf.min HEARTBEAT_INTERVAL_MS).timeout ≤ 3000)
  constructor
  · exact fun _ => rfl
  · exact fun n => Nat.add_le_add_left (short (heartbeats n).now) (3000 * n)

theorem wakes_iff (double : retryAtMs.double = retryAtMs) :
    Wakes retryAtMs ↔ ¬ Endless retryAtMs := by
  have grained : ∀ q, retryAtMs = .fin q → binary64.Grained q := by
    rintro q rfl
    exact (Num.double_eq_fin double).2.grained
  constructor
  · intro wakes endless
    obtain ⟨fuel, n, ended, -⟩ := wakes heartbeats (heartbeats_advance endless)
    rw [endless_waits endless (fun _ => rfl)] at ended
    cases ended
  · intro endless turns advancing
    have reached : ∃ m, due retryAtMs (turns m).now = true := by
      cases retryAtMs with
      | nan => exact absurd (.inl rfl) endless
      | inf => exact absurd (.inr rfl) endless
      | ninf => exact ⟨0, rfl⟩
      | fin q =>
        refine ⟨q.ceil.toNat, (due_fin (grained q rfl)).mpr ?_⟩
        have above : q ≤ q.ceil.toNat :=
          Rat.le_ceil.trans (by exact_mod_cast Int.self_le_toNat q.ceil)
        exact above.trans (by exact_mod_cast advancing.later _)
    obtain ⟨m, late⟩ := reached
    obtain ⟨n, ended⟩ := wait_ends late (Nat.zero_le m)
    refine ⟨_, n, ended, fun q stamp => ?_⟩
    have returned := wait_returns ended
    rw [advancing.running, Bool.false_or, stamp] at returned
    exact (due_fin (grained q stamp)).mp returned

/-! What a handler does while every delivery fails. -/

/- The wait of a retry before it is capped, `baseMs * 2 ** Math.max(0, attempt - 1)`. -/
def growth (approx : Rat → Rat) (attempt : Num) (baseMs : Int) : Num :=
  (Num.ofInt baseMs).times (Num.pow2 approx (Num.max (.ofInt 0) (attempt.minus (.ofInt 1))))

def backoffMs (approx : Rat → Rat) (attempt : Num) (baseMs maxMs : Int) (random : Rat) : Num :=
  ((Num.fin random).times (Num.min (.ofInt maxMs) (growth approx attempt baseMs))).floor

/- What `Math.random()` gives. -/
def Jitter (q : Rat) : Prop := 0 ≤ q ∧ q < 1

/-- The provider refuses every message and nothing else goes wrong: no shutdown, no message that
has been handled before, and every publish is stored. An INSERT may fail too. -/
def Fails (draw : Rat → Prop) : Prog.Event Effect.Answer Err → Prop
  | ⟨.stopping _, r⟩ => r = .ok false
  | ⟨.waitUntilDue .., r⟩ => r = .ok ()
  | ⟨.acquire _, r⟩ => r = .ok ()
  | ⟨.insertClaim _, r⟩ => r ≠ .ok false
  | ⟨.deliver _, r⟩ => r ≠ .ok ()
  | ⟨.random, r⟩ => ∃ q, draw q ∧ r = .ok q
  | ⟨.dateNow, r⟩ => ∃ now : Time, now ≤ lastTime ∧ r = .ok now
  | ⟨.sendBatch _, r⟩ => r = .ok ()
  | _ => True

def published (events : List (Prog.Event Effect.Answer Err)) : List (OutgoingMessage Value) :=
  events.flatMap fun
    | ⟨.sendBatch batch, .ok _⟩ => sent batch
    | _ => []

structure Stored (m : OutgoingMessage Value) (value : Json) (copy : Record) : Prop where
  topic : copy.topic = m.topic
  key : copy.key = some m.key
  value : copy.value = some (.json value)
  headers : copy.headers = m.headers

/-- A record whose deliveries all fail is waited for and dead-lettered, after `n` handlers at most:
each one writes the dead letter, or publishes a retry that has `n - 1` left. -/
def DeadLetteredWithin (config : AppConfiguration) (approx : Rat → Rat) :
    Nat → Bool → Record → Prop
  | 0, _, _ => False
  | n + 1, isRetryTopic, record =>
    (isRetryTopic = true → Wakes record.message.retryAt) ∧
      ∀ replica events o, Runs (onMessage config approx replica isRetryTopic record) events o →
        (∀ y ∈ events, Fails Jitter y) →
          (∃ m ∈ published events, m.topic = config.kafka.topics.dlq ∧
            ∃ letter, m.value = .deadLetter letter) ∨
          ∃ m ∈ published events, m.topic = subscribed config.kafka.topics true ∧
            ∃ value, m.value = .json value ∧
              ∀ copy, Stored m value copy → DeadLetteredWithin config approx n true copy

/-- What a handler publishes when it can deliver nothing. -/
inductive GivesBack (config : AppConfiguration) (approx : Rat → Rat) (draw : Rat → Prop)
    (message : Message) :
    OutgoingMessage Value → Prop where
  | unreadable {text : String} {now : Time} : message.body = .invalid text →
      GivesBack config approx draw message
        (deadLetterMessage config message message.attempts "payload is not valid JSON" now)
  | spent {parsed : Json} {error : Err} {now : Time} : message.body = .json parsed →
      shouldDeadLetter (message.attempts.plus (.ofInt 1)) config.notifications.maxAttempts = true →
      GivesBack config approx draw message
        (deadLetterMessage config message (message.attempts.plus (.ofInt 1)) error.message now)
  | retried {parsed : Json} {error : Err} {now : Time} {q : Rat} : message.body = .json parsed →
      shouldDeadLetter (message.attempts.plus (.ofInt 1)) config.notifications.maxAttempts = false →
      draw q → now ≤ lastTime →
      GivesBack config approx draw message
        (retryMessage config message parsed (message.attempts.plus (.ofInt 1))
          ((Num.ofInt now).plus (backoffMs approx (message.attempts.plus (.ofInt 1))
            config.notifications.retryBaseMs config.notifications.retryMaxMs q)) error)

variable {config : AppConfiguration} {approx : Rat → Rat} {draw : Rat → Prop} {message : Message}
  {events : List (Prog.Event Effect.Answer Err)} {o : Except Err Unit} {record : Record}

theorem published_routine (routine : ∀ y ∈ events, y.1.routine) : published events = [] := by
  refine List.flatMap_eq_nil_iff.mpr fun y hy => ?_
  obtain ⟨e, r⟩ := y
  cases e with
  | sendBatch batch => exact (routine _ hy).elim
  | _ => rfl

theorem publish_gives {m : OutgoingMessage Value} (run : Runs (publish m) events o)
    (fails : ∀ y ∈ events, Fails draw y) : published events = [m] ∧ o = .ok () := by
  have asked : Runs (ask (Effect.sendBatch [⟨m.topic, [m]⟩])) events o := run
  cases runs_await asked
  cases fails _ (List.mem_singleton_self _)
  exact ⟨rfl, rfl⟩

theorem deadLetter_gives {attempts : Num} {reason : String}
    (run : Runs (deadLetter config message attempts reason) events o)
    (fails : ∀ y ∈ events, Fails draw y) :
    ∃ now, published events = [deadLetterMessage config message attempts reason now] := by
  obtain ⟨r, rest, rfl, after⟩ := runs_first run
  obtain ⟨now, -, rfl⟩ := fails _ (List.mem_cons_self ..)
  have later : ∀ y ∈ rest, Fails draw y := fun y hy => fails y (List.mem_cons_of_mem _ hy)
  refine ⟨now, (?_ : published rest = _)⟩
  rcases runs_handle after with ⟨a, -, stored⟩ | ⟨x, first, last, threw, -, rfl⟩
  · exact (publish_gives stored later).1
  · cases (publish_gives threw fun y hy => later y (List.mem_append_left _ hy)).2

theorem schedule_gives {parsed : Json} {error : Err} (body : message.body = .json parsed)
    (run : Runs (scheduleRetryOrDeadLetter config approx message parsed error) events o)
    (fails : ∀ y ∈ events, Fails draw y) :
    ∃ m, published events = [m] ∧ GivesBack config approx draw message m := by
  unfold scheduleRetryOrDeadLetter at run
  dsimp only at run
  split at run
  · next spent =>
    obtain ⟨now, given⟩ := deadLetter_gives run fails
    exact ⟨_, given, .spent body spent⟩
  · next more =>
    obtain ⟨first, asked, jitter, after⟩ := runs_bind run
    obtain ⟨r, rest, rfl, back⟩ := runs_first jitter
    cases after with
    | threw =>
      obtain ⟨q, -, rfl⟩ := fails _ (List.mem_cons_self ..)
      cases (runs_done back).2
    | @went backoff rest' after =>
      obtain ⟨q, drawn, rfl⟩ := fails _ (List.mem_cons_self ..)
      obtain ⟨rfl, ended⟩ := runs_done back
      cases Except.ok.inj ended
      obtain ⟨r', rest'', rfl, after'⟩ := runs_first after
      obtain ⟨now, time, rfl⟩ := fails _ (List.mem_cons_of_mem _ (List.mem_cons_self ..))
      have given := publish_gives after' fun y hy =>
        fails y (List.mem_cons_of_mem _ (List.mem_cons_of_mem _ hy))
      exact ⟨_, given.1, .retried body (Bool.eq_false_iff.mpr more) drawn time⟩

theorem handle_routine (config : AppConfiguration) (incoming : IncomingNotification) :
    (handle config incoming).Only Effect.routine := by
  refine only_bind ((only_await _).mpr trivial) fun claimed => ?_
  split
  · refine only_handle (only_bind ((only_await _).mpr trivial) fun _ => trivial) fun x => ?_
    exact only_bind (only_handle ((only_await _).mpr trivial) fun _ => trivial) fun _ => trivial
  · trivial

theorem handle_fails {incoming : IncomingNotification} {r : Except Err Handled}
    (run : Runs (handle config incoming) events r) (fails : ∀ y ∈ events, Fails draw y) :
    ∃ error, r = .error error := by
  obtain ⟨claimed, rest, rfl, after⟩ := runs_first run
  have won := fails _ (List.mem_cons_self ..)
  cases claimed with
  | error x => exact ⟨x, (runs_fail after).2⟩
  | ok claimed =>
    cases claimed with
    | false => exact absurd rfl won
    | true =>
      rcases runs_handle after with ⟨a, -, delivered⟩ | ⟨x, first, last, -, caught, -⟩
      · obtain ⟨sent, rest', rfl, after'⟩ := runs_first delivered
        have refused := fails _ (List.mem_cons_of_mem _ (List.mem_cons_self ..))
        cases sent with
        | ok u => exact absurd rfl refused
        | error x => cases (runs_fail after').2
      · obtain ⟨_, _, -, thrown⟩ := runs_bind caught
        cases thrown with
        | threw ended => exact ⟨_, ended⟩
        | went thrown => exact ⟨x, (runs_fail thrown).2⟩

theorem reschedule_gives {parsed : Json} (body : message.body = .json parsed)
    (run : Runs (handleOrReschedule config approx message parsed) events o)
    (fails : ∀ y ∈ events, Fails draw y) :
    ∃ m, published events = [m] ∧ GivesBack config approx draw message m := by
  rcases runs_handle run with ⟨a, -, handled⟩ | ⟨error, first, last, threw, caught, rfl⟩
  · obtain ⟨_, first, _, inner, -, rfl⟩ := runs_through handled
    obtain ⟨x, ended⟩ := handle_fails inner fun y hy => fails y (List.mem_append_left _ hy)
    cases ended
  · have quiet : published first = [] :=
      published_routine (runs_only threw (only_bind (handle_routine config _) fun _ => trivial))
    obtain ⟨m, given, back⟩ := schedule_gives body caught fun y hy =>
      fails y (List.mem_append_right _ hy)
    refine ⟨m, ?_, back⟩
    rw [published, List.flatMap_append]
    exact (congrArg (· ++ published last) quiet).trans given

theorem process_gives {replica : Replica}
    (run : Runs (process config approx replica message) events o) (fails : ∀ y ∈ events, Fails draw y) :
    ∃ m, published events = [m] ∧ GivesBack config approx draw message m := by
  unfold process at run
  split at run
  · next text body =>
    obtain ⟨now, given⟩ := deadLetter_gives run fails
    exact ⟨_, given, .unreadable body⟩
  · next parsed body =>
    obtain ⟨r, rest, rfl, after⟩ := runs_first run
    cases fails _ (List.mem_cons_self ..)
    have later : Runs (handleOrReschedule config approx message parsed) rest o := after
    obtain ⟨m, given, back⟩ :=
      reschedule_gives body later fun y hy => fails y (List.mem_cons_of_mem _ hy)
    exact ⟨m, given, back⟩

theorem unless_running {replica : Replica} {rest : Consumer Unit}
    (run : Runs (unlessStopping replica rest) events o) (fails : ∀ y ∈ events, Fails draw y) :
    ∃ later, Runs rest later o ∧ published later = published events ∧ ∀ y ∈ later, Fails draw y := by
  obtain ⟨r, later, rfl, after⟩ := runs_first run
  cases fails _ (List.mem_cons_self ..)
  exact ⟨later, after, rfl, fun y hy => fails y (List.mem_cons_of_mem _ hy)⟩

/-- A handler that can deliver nothing publishes one message. -/
theorem onMessage_gives {replica : Replica} {isRetryTopic : Bool}
    (run : Runs (onMessage config approx replica isRetryTopic record) events o)
    (fails : ∀ y ∈ events, Fails draw y) :
    ∃ m, published events = [m] ∧ GivesBack config approx draw record.message m := by
  obtain ⟨later, after, same, fails⟩ := unless_running run fails
  rw [← same]
  cases isRetryTopic with
  | false => exact process_gives after fails
  | true =>
    obtain ⟨r, rest, rfl, waited⟩ := runs_first after
    cases fails _ (List.mem_cons_self ..)
    obtain ⟨last, after, same, fails⟩ :=
      unless_running waited fun y hy => fails y (List.mem_cons_of_mem _ hy)
    obtain ⟨m, given, back⟩ := process_gives after fails
    exact ⟨m, same ▸ given, back⟩

def refused : (e : Effect) → Except Err e.Answer
  | .fetch .. => .error lost
  | .stopping _ => .ok false
  | .waitUntilDue .. => .ok ()
  | .acquire _ => .ok ()
  | .insertClaim _ => .ok true
  | .deliver _ => .error (.other "no provider")
  | .deleteClaim .. => .ok ()
  | .random => .ok (0 : Rat)
  | .dateNow => .ok (0 : Nat)
  | .sendBatch _ => .ok ()

theorem refused_fails (e : Effect) : Fails (· = 0) ⟨e, refused e⟩ := by
  cases e with
  | random => exact ⟨0, rfl, rfl⟩
  | dateNow => exact ⟨0, Nat.zero_le _, rfl⟩
  | insertClaim row => exact nofun
  | deliver m => exact nofun
  | _ => first | rfl | trivial

theorem Fails.jitter {y : Prog.Event Effect.Answer Err} (h : Fails (· = 0) y) : Fails Jitter y := by
  obtain ⟨e, r⟩ := y
  cases e with
  | random =>
    obtain ⟨q, rfl, answer⟩ := h
    exact ⟨0, ⟨le_rfl, zero_lt_one⟩, answer⟩
  | _ => exact h

theorem fails_somehow (config : AppConfiguration) (approx : Rat → Rat) (replica : Replica)
    (isRetryTopic : Bool) (record : Record) :
    ∃ events o, Runs (onMessage config approx replica isRetryTopic record) events o ∧
      ∀ y ∈ events, Fails (· = 0) y :=
  ⟨_, _, respond_runs refused _, fun y hy => respond_answers refused _ y hy ▸ refused_fails y.1⟩

def storedAs (m : OutgoingMessage Value) (value : Json) : Record :=
  ⟨m.topic, 0, 0, some m.key, some (.json value), m.headers, .named ""⟩

theorem storedAs_stored (m : OutgoingMessage Value) (value : Json) :
    Stored m value (storedAs m value) := ⟨rfl, rfl, rfl, rfl⟩

theorem Stored.body {m : OutgoingMessage Value} {value : Json} {copy : Record}
    (h : Stored m value copy) : copy.message.body = .json value := by
  simp [Record.message, Record.body, h.value]

theorem Stored.attempts {parsed value : Json} {attempts stamp : Num} {error : Err} {copy : Record}
    (h : Stored (retryMessage config message parsed attempts stamp error) value copy) :
    copy.message.attempts = attempts.double ∧ copy.message.retryAt = stamp.double := by
  simp [Record.message, h.headers, retryMessage]

/-! The counter of a message that is never delivered. -/

def countedUp (attempts : Num) : Nat → Num
  | 0 => attempts
  | n + 1 => countedUp (attempts.plus (.ofInt 1)) n

/-- The attempts run out: `n` failures bring the counter to the bound, and until then each wait is
a number of milliseconds. -/
structure RunsOut (config : AppConfiguration) (approx : Rat → Rat) (attempts : Num) (n : Nat) :
    Prop where
  reached : shouldDeadLetter (countedUp attempts n) config.notifications.maxAttempts = true
  timed : ∀ k, 0 < k →
    shouldDeadLetter (countedUp attempts k) config.notifications.maxAttempts = false →
    growth approx (countedUp attempts k) config.notifications.retryBaseMs ≠ .nan ∧
      growth approx (countedUp attempts k) config.notifications.retryBaseMs ≠ .ninf

variable {attempts : Num} {z : Int}

theorem plus_double (a b : Num) : (a.plus b).double = a.plus b := Num.double_double _

theorem le_plus_one (double : attempts.double = attempts) (h : (Num.ofInt z).le attempts = true) :
    (Num.ofInt z).le (attempts.plus (.ofInt 1)) = true := by
  have step : attempts.le (attempts.add (.ofInt 1)) = true := by
    cases attempts with
    | nan => cases h
    | fin q => simp [Num.ofInt, Num.add, Num.le]
    | _ => rfl
  have rounded := Num.double_mono step
  rw [double] at rounded
  exact Num.le_trans h rounded

theorem countedUp_stays (double : attempts.double = attempts)
    (h : (Num.ofInt z).le attempts = true) (n : Nat) :
    (Num.ofInt z).le (countedUp attempts n) = true := by
  induction n generalizing attempts with
  | zero => exact h
  | succ n ih => exact ih (plus_double ..) (le_plus_one double h)

theorem runsOut_of_spent (spent : shouldDeadLetter (attempts.plus (.ofInt 1))
    config.notifications.maxAttempts = true) (n : Nat) : RunsOut config approx attempts (n + 1) := by
  have stays := countedUp_stays (plus_double attempts (.ofInt 1)) spent
  refine ⟨stays n, fun k some below => ?_⟩
  obtain ⟨k, rfl⟩ := Nat.exists_eq_succ_of_ne_zero some.ne'
  cases (stays k).symm.trans below

theorem RunsOut.later {n : Nat} (h : RunsOut config approx attempts (n + 1)) :
    RunsOut config approx (attempts.plus (.ofInt 1)) n :=
  ⟨h.reached, fun k _ => h.timed (k + 1) k.succ_pos⟩

/-! The stamp of a retry. -/

/- Where the growth is a number or `Infinity`, the cap leaves a finite wait. -/
theorem capped_finite {attempt : Num} {baseMs maxMs : Int}
    (finite : |(maxMs : Rat)| ≤ binary64.largest)
    (number : growth approx attempt baseMs ≠ .nan) (above : growth approx attempt baseMs ≠ .ninf) :
    ∃ w : Rat, Num.min (.ofInt maxMs) (growth approx attempt baseMs) = .fin w ∧
      |w| ≤ binary64.largest := by
  cases grown : growth approx attempt baseMs with
  | nan => exact absurd grown number
  | ninf => exact absurd grown above
  | inf => exact ⟨maxMs, rfl, finite⟩
  | fin y =>
    have bounded := (Num.double_eq_fin grown).1
    refine ⟨_, Num.min_fin _ _, ?_⟩
    split
    · exact finite
    · exact bounded

theorem stamp_finite {attempt : Num} {baseMs maxMs : Int} {q : Rat} {now : Time}
    (finite : |(maxMs : Rat)| ≤ binary64.largest) (nonneg : 0 ≤ q) (below : q < 1)
    (time : now ≤ lastTime) (number : growth approx attempt baseMs ≠ .nan)
    (above : growth approx attempt baseMs ≠ .ninf) :
    ∃ x, (Num.ofInt now).plus (backoffMs approx attempt baseMs maxMs q) = .fin x := by
  obtain ⟨w, capped, bounded⟩ := capped_finite finite number above
  have product : |q * w| ≤ binary64.largest := by
    rw [abs_mul, abs_of_nonneg nonneg]
    exact (mul_le_of_le_one_left (abs_nonneg w) below.le).trans bounded
  have rounded := Format.abs_round_le_largest (product.trans_lt Format.largest_lt_overflow)
  have wait : backoffMs approx attempt baseMs maxMs q = .fin (binary64.round (q * w)).floor := by
    rw [backoffMs, capped, Num.times, Num.mul,
      Num.double_fin (product.trans_lt Format.largest_lt_overflow), Num.floor]
  have room : (binary64.largest : Rat) + lastTime + 1 < binary64.overflow := by decide +kernel
  have floor := Rat.floor_le (binary64.round (q * w))
  have next := Rat.lt_floor_add_one (binary64.round (q * w))
  have time' : (now : Rat) ≤ lastTime := by exact_mod_cast time
  have positive : (0 : Rat) ≤ now := Nat.cast_nonneg now
  obtain ⟨low, high⟩ := abs_le.mp rounded
  refine ⟨binary64.round ((now : Int) + (binary64.round (q * w)).floor), ?_⟩
  rw [wait, Num.plus, Num.ofInt, Num.add, Num.double_fin]
  push_cast at next ⊢
  rw [abs_lt]
  constructor <;> linarith

/- Otherwise the wait is no number when the jitter is zero. -/
theorem backoff_nan {attempt : Num} {baseMs : Int} (maxMs : Int)
    (h : growth approx attempt baseMs = .nan ∨ growth approx attempt baseMs = .ninf) :
    backoffMs approx attempt baseMs maxMs 0 = .nan := by
  rcases h with grown | grown <;> rw [backoffMs, grown] <;> rfl

theorem retry_waits {n : Nat} {copy : Record} (h : DeadLetteredWithin config approx n true copy) :
    ¬ Endless copy.message.retryAt := by
  cases n with
  | zero => exact h.elim
  | succ n => exact (wakes_iff (Num.double_double _)).mp (h.1 rfl)

/-- Each handler brings the counter one closer to the bound. -/
theorem runsOut_of_deadLettered {n : Nat} {isRetryTopic : Bool}
    (h : DeadLetteredWithin config approx n isRetryTopic record) :
    (∃ text, record.message.body = .invalid text) ∨
      RunsOut config approx record.message.attempts n := by
  induction n generalizing isRetryTopic record with
  | zero => exact h.elim
  | succ n ih =>
    obtain ⟨events, o, run, fails⟩ := fails_somehow config approx 0 isRetryTopic record
    obtain ⟨m, given, back⟩ := onMessage_gives run fails
    have next := h.2 0 events o run fun y hy => (fails y hy).jitter
    simp only [given, List.mem_singleton, exists_eq_left] at next
    cases back with
    | unreadable body => exact .inl ⟨_, body⟩
    | spent body spent => exact .inr (runsOut_of_spent spent n)
    | @retried parsed error now q body more zero time =>
      subst zero
      rcases next with ⟨-, letter, value⟩ | ⟨-, value, json, rest⟩
      · cases value
      · have within := rest _ (storedAs_stored ..)
        obtain ⟨attempts, retryAt⟩ := (storedAs_stored _ value).attempts
        have later := (ih within).resolve_left (by
          rintro ⟨text, invalid⟩
          rw [(storedAs_stored ..).body] at invalid
          cases invalid)
        rw [attempts, plus_double] at later
        refine .inr ⟨later.reached, fun k some below => ?_⟩
        obtain ⟨k, rfl⟩ := Nat.exists_eq_succ_of_ne_zero some.ne'
        rcases k.eq_zero_or_pos with rfl | some
        · by_contra wrong
          have endless : growth approx (countedUp record.message.attempts 1)
              config.notifications.retryBaseMs = .nan ∨
              growth approx (countedUp record.message.attempts 1)
                config.notifications.retryBaseMs = .ninf := by
            rw [not_and_or, not_not, not_not] at wrong
            exact wrong
          have wait := backoff_nan config.notifications.retryMaxMs endless
          simp only [countedUp] at wait
          exact retry_waits within (.inl (retryAt.trans (by rw [wait]; rfl)))
        · exact later.timed k some below

theorem deadLettered_of_runsOut {n : Nat} {isRetryTopic : Bool} (some : 1 ≤ n)
    (finite : |(config.notifications.retryMaxMs : Rat)| ≤ binary64.largest)
    (wakes : isRetryTopic = true → Wakes record.message.retryAt)
    (h : (∃ text, record.message.body = .invalid text) ∨
      RunsOut config approx record.message.attempts n) :
    DeadLetteredWithin config approx n isRetryTopic record := by
  induction n generalizing isRetryTopic record with
  | zero => cases some
  | succ n ih =>
    refine ⟨wakes, fun replica events o run fails => ?_⟩
    obtain ⟨m, given, back⟩ := onMessage_gives run fails
    simp only [given, List.mem_singleton, exists_eq_left]
    cases back with
    | unreadable => exact .inl ⟨rfl, _, rfl⟩
    | spent => exact .inl ⟨rfl, _, rfl⟩
    | @retried parsed error now q body more jitter time =>
      refine .inr ⟨rfl, parsed, rfl, fun copy stored => ?_⟩
      obtain ⟨attempts, retryAt⟩ := stored.attempts
      have counted := h.resolve_left (by
        rintro ⟨text, invalid⟩
        rw [body] at invalid
        cases invalid)
      have later : 1 ≤ n := by
        by_contra first
        have one : n = 0 := by omega
        subst one
        exact absurd counted.reached (Bool.eq_false_iff.mp more)
      have timed := counted.timed 1 Nat.one_pos more
      obtain ⟨x, stamp⟩ := stamp_finite finite jitter.1 jitter.2 time timed.1 timed.2
      apply ih later
      · intro _
        rw [retryAt, plus_double, wakes_iff (plus_double ..)]
        simp only [countedUp] at stamp
        rw [stamp]
        rintro (wrong | wrong) <;> cases wrong
      · rw [attempts, plus_double]
        exact .inr counted.later

/-- With at least one attempt configured, a consumer is wedged by no record whose stamp, on the
retry topic, is neither `NaN` nor `Infinity`, and whose attempts run out; a record that is no JSON
needs no counter. All others wedge it, or are retried too often. -/
theorem no_header_wedges (config : AppConfiguration) (approx : Rat → Rat) (isRetryTopic : Bool)
    (record : Record) (positive : 1 ≤ config.notifications.maxAttempts)
    (finite : |(config.notifications.retryMaxMs : Rat)| ≤ binary64.largest) :
    ((isRetryTopic = true → Wakes record.message.retryAt) ∧
      DeadLetteredWithin config approx config.notifications.maxAttempts.toNat isRetryTopic record) ↔
    (isRetryTopic = true → record.message.retryAt ≠ .nan ∧ record.message.retryAt ≠ .inf) ∧
      ((∃ text, record.message.body = .invalid text) ∨
        RunsOut config approx record.message.attempts config.notifications.maxAttempts.toNat) := by
  have stamps : (isRetryTopic = true → Wakes record.message.retryAt) ↔
      (isRetryTopic = true → record.message.retryAt ≠ .nan ∧ record.message.retryAt ≠ .inf) := by
    have double : record.message.retryAt.double = record.message.retryAt := Num.double_double _
    simp only [wakes_iff double, Endless, not_or, ne_eq]
  rw [← stamps]
  constructor
  · rintro ⟨wakes, within⟩
    exact ⟨wakes, runsOut_of_deadLettered within⟩
  · rintro ⟨wakes, counted⟩
    exact ⟨wakes, deadLettered_of_runsOut (by omega) finite wakes counted⟩

def withHeaders (attempts retryAt : Num) : Record :=
  ⟨"booking.events.retry", 0, 0, some "a", some (.json (.object [])),
    { messageId := some "a", attempts := some attempts, retryAt := some retryAt }, .named "a"⟩

theorem no_header_wedges_stamped :
    (true = true → Wakes (withHeaders (.ofInt 2) (.ofInt 1000)).message.retryAt) ∧
      DeadLetteredWithin {} id 3 true (withHeaders (.ofInt 2) (.ofInt 1000)) := by
  have spent : shouldDeadLetter ((withHeaders (.ofInt 2) (.ofInt 1000)).message.attempts.plus
      (.ofInt 1)) 3 = true := by decide +kernel
  have stamp : (withHeaders (.ofInt 2) (.ofInt 1000)).message.retryAt = .ofInt 1000 := by
    decide +kernel
  refine (no_header_wedges {} id true (withHeaders (.ofInt 2) (.ofInt 1000)) (by decide)
    (by decide +kernel)).mpr ⟨fun _ => ?_, .inr (runsOut_of_spent spent 2)⟩
  rw [stamp]
  simp [Num.ofInt]

/- Headers that are no numbers, as the text "x" is none. -/
theorem not_a_number_wedges : ¬ Wakes (withHeaders .nan .nan).message.retryAt ∧
    ∀ n, ¬ DeadLetteredWithin {} id n false (withHeaders .nan .nan) := by
  constructor
  · exact fun wakes => (wakes_iff rfl).mp wakes (.inl rfl)
  · intro n within
    have stays : ∀ k, countedUp .nan k = .nan := by
      intro k
      induction k with
      | zero => rfl
      | succ k ih => exact ih
    rcases runsOut_of_deadLettered within with ⟨text, invalid⟩ | counted
    · cases invalid
    · have reached := counted.reached
      change shouldDeadLetter (countedUp .nan n) 3 = true at reached
      rw [stays] at reached
      cases reached

/-! Which counters reach the bound. -/

theorem countedUp_mono {a b : Num} (h : a.le b = true) (n : Nat) :
    (countedUp a n).le (countedUp b n) = true := by
  induction n generalizing a b with
  | zero => exact h
  | succ n ih => exact ih (Num.plus_one_mono h)

theorem countedUp_ofInt {m : Int} {n : Nat} (low : -2 ^ 53 ≤ m) (high : m + n ≤ 2 ^ 53) :
    countedUp (.ofInt m) n = .ofInt (m + n) := by
  induction n generalizing m with
  | zero => simp [countedUp]
  | succ n ih =>
    have bits : |m + 1| ≤ 2 ^ 53 := abs_le.mpr ⟨by omega, by omega⟩
    rw [countedUp, Num.plus_one bits, ih (by omega) (by omega)]
    congr 1
    omega

/-- Bounds that a double can count up to are reached from zero on, and from no counter up to -1. -/
theorem reaches_from_zero (small : z ≤ 2 ^ 53) (nonneg : 0 ≤ z)
    (h : (Num.ofInt 0).le attempts = true) :
    shouldDeadLetter (countedUp attempts z.toNat) z = true := by
  have counted := countedUp_mono h z.toNat
  rwa [countedUp_ofInt (by omega) (by omega), Int.toNat_of_nonneg nonneg, zero_add] at counted

theorem short_below_zero (small : z ≤ 2 ^ 53) (nonneg : 0 ≤ z)
    (h : attempts.le (Num.ofInt (-1)) = true) :
    shouldDeadLetter (countedUp attempts z.toNat) z = false := by
  have counted := countedUp_mono h z.toNat
  rw [countedUp_ofInt (by omega) (by omega), Int.toNat_of_nonneg nonneg] at counted
  rw [shouldDeadLetter, Bool.eq_false_iff]
  intro reached
  have wrong := Num.le_trans reached counted
  simp [Num.ofInt, Num.le] at wrong
  exact absurd wrong (by norm_num)

end Overbook.Notifications
