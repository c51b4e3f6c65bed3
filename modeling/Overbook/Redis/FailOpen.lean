import Overbook.Async.Trace
import Overbook.Redis.Cache

/-! A cache that fails open: whatever Redis does, a read ends with a value, unless the SET NX of
its lock is rejected. -/
namespace Overbook.Redis

open Async Prog

variable {V : Type}

abbrev Happened (V : Type) := Event (Effect.Answer (V := V)) Err

def Effect.command : Effect V → Bool
  | .get _ => true
  | .set .. => true
  | .setNx .. => true
  | .releaseLock .. => true
  | _ => false

/-- Only Redis fails: the load function resolves, and so does what the process does by itself. -/
def OnlyRedisFails (events : List (Happened V)) : Prop :=
  ∀ event ∈ events, event.1.command = false → ∃ a, event.2 = .ok a

/-- Time goes on: the clock is never behind `t`, and a timer runs for as long as it was set. -/
def Clocked : Int → List (Happened V) → Prop
  | _, [] => True
  | t, ⟨.dateNow, .ok now⟩ :: events => t ≤ now ∧ Clocked now events
  | t, ⟨.setTimeout ms, .ok due⟩ :: events => t + ms ≤ due ∧ Clocked t events
  | t, ⟨.elapsed due, .ok _⟩ :: events => Clocked (max t due) events
  | t, _ :: events => Clocked t events

def LockRejected (event : Happened V) : Prop :=
  match event with
  | ⟨.setNx .., .error _⟩ => True
  | _ => False

/-- A value that the load function gave or that was in the cache. -/
inductive Origin (key : String) (events : List (Happened V)) (v : V) : Prop where
  | loaded : (⟨.load key, .ok v⟩ : Happened V) ∈ events → Origin key events v
  | cached {entry : CacheEnvelope V} : (⟨.get key, .ok (some entry)⟩ : Happened V) ∈ events →
      entry.v = v → Origin key events v

theorem Origin.mono {key : String} {events events' : List (Happened V)} {v : V}
    (sub : ∀ event ∈ events, event ∈ events') (h : Origin key events v) : Origin key events' v := by
  cases h with
  | loaded mem => exact .loaded (sub _ mem)
  | cached mem same => exact .cached (sub _ mem) same

theorem Clocked.rest {t : Int} {first rest : List (Happened V)} (h : Clocked t (first ++ rest)) :
    ∃ t', Clocked t' rest := by
  induction first generalizing t with
  | nil => exact ⟨t, h⟩
  | cons event first ih =>
    rw [List.cons_append] at h
    unfold Clocked at h
    split at h
    · cases ‹_ = []›
    · rename_i same
      cases same
      exact ih h.2
    · rename_i same
      cases same
      exact ih h.2
    · rename_i same
      cases same
      exact ih h
    · rename_i same
      cases same
      exact ih h

theorem OnlyRedisFails.append {first rest : List (Happened V)}
    (h : OnlyRedisFails (first ++ rest)) : OnlyRedisFails first ∧ OnlyRedisFails rest :=
  ⟨fun event he => h event (List.mem_append_left _ he),
    fun event he => h event (List.mem_append_right _ he)⟩

theorem OnlyRedisFails.head {e : Effect V} {r : Except Err e.Answer} {events : List (Happened V)}
    (h : OnlyRedisFails (⟨e, r⟩ :: events)) (own : e.command = false) : ∃ a, r = .ok a :=
  h ⟨e, r⟩ List.mem_cons_self own

variable {config : CacheConfig} {options : CacheOptions} {key token : String}
  {events : List (Happened V)} {rounds : Nat}

/-! Where a program does not ask for the lock, no SET NX is rejected. -/

def Effect.lockless : Effect V → Prop
  | .setNx .. => False
  | .more => False
  | _ => True

theorem lockless_not_rejected {events : List (Happened V)}
    (h : ∀ event ∈ events, event.1.lockless) : ∀ event ∈ events, ¬ LockRejected event := by
  rintro ⟨e, r⟩ he rejected
  have lockless := h _ he
  cases e <;> first | exact rejected | exact lockless

theorem ask_lockless {e : Effect V} (h : e.lockless) : (ask e).Only Effect.lockless :=
  (only_await e).mpr h

theorem read_lockless : (read key : Cached V _).Only Effect.lockless :=
  only_handle (ask_lockless trivial) fun _ => trivial

theorem releaseLock_lockless : (releaseLock key token : Cached V _).Only Effect.lockless :=
  only_handle (ask_lockless trivial) fun _ => trivial

theorem ttlWithJitter_lockless (base jitter : Int) :
    (ttlWithJitter base jitter : Cached V _).Only Effect.lockless := by
  unfold ttlWithJitter
  split
  · trivial
  · exact only_bind (ask_lockless trivial) fun _ => trivial

theorem write_lockless (value : V) : (write config options key value).Only Effect.lockless := by
  refine only_bind (ttlWithJitter_lockless ..) fun _ => ?_
  refine only_bind (ask_lockless trivial) fun _ => ?_
  exact only_handle (ask_lockless trivial) fun _ => trivial

theorem loadAndWrite_lockless :
    (loadAndWrite config options key : Cached V _).Only Effect.lockless := by
  refine only_bind (ask_lockless trivial) fun _ => ?_
  exact only_bind (write_lockless _) fun _ => trivial

theorem sleep_lockless (ms : Int) : (sleep ms : Cached V _).Only Effect.lockless :=
  only_bind (ask_lockless trivial) fun _ => ask_lockless trivial

/-! How each part ends. -/

theorem runs_ask {e : Effect V} {o : Except Err e.Answer} (own : e.command = false)
    (run : Runs (ask e) events o) (fair : OnlyRedisFails events) :
    ∃ a, o = .ok a ∧ events = [⟨e, .ok a⟩] := by
  obtain rfl := runs_await run
  obtain ⟨a, rfl⟩ := fair.head own
  exact ⟨a, rfl, rfl⟩

theorem runs_caught {e : Effect V} {a : e.Answer} {o : Except Err e.Answer}
    (run : Runs (tryCatch (ask e) fun _ => return a) events o) :
    ∃ r, events = [⟨e, r⟩] ∧ o = .ok (r.toOption.getD a) := by
  rcases runs_handle run with ⟨a, rfl, inner⟩ | ⟨x, first, rest, inner, caught, rfl⟩
  · exact ⟨.ok a, runs_await inner, rfl⟩
  · obtain ⟨rfl, rfl⟩ := runs_done caught
    obtain rfl := runs_await inner
    exact ⟨.error x, rfl, rfl⟩

theorem runs_ttlWithJitter {base jitter : Int} {o : Except Err Int}
    (run : Runs (ttlWithJitter base jitter : Cached V _) events o) (fair : OnlyRedisFails events) :
    ∃ seconds, o = .ok seconds := by
  unfold ttlWithJitter at run
  split at run
  · exact ⟨_, (runs_done run).2⟩
  · obtain ⟨first, r, asked, after⟩ := runs_bind run
    cases after with
    | threw ended =>
      obtain ⟨a, ended, _⟩ := runs_ask rfl asked fair
      cases ended
    | went after => exact ⟨_, (runs_done after).2⟩

theorem runs_write {value : V} {o : Except Err Unit}
    (run : Runs (write config options key value) events o) (fair : OnlyRedisFails events) :
    o = .ok () := by
  obtain ⟨first, r, jittered, after⟩ := runs_bind run
  cases after with
  | threw ended =>
    obtain ⟨_, ended⟩ := runs_ttlWithJitter jittered fair
    cases ended
  | went after =>
    obtain ⟨second, r', asked, last⟩ := runs_bind after
    cases last with
    | threw ended =>
      obtain ⟨_, ended, _⟩ := runs_ask rfl asked fair.append.2
      cases ended
    | went last => exact (runs_caught last).choose_spec.2

theorem runs_loadAndWrite {o : Except Err V}
    (run : Runs (loadAndWrite config options key) events o) (fair : OnlyRedisFails events) :
    ∃ v, o = .ok v ∧ (⟨.load key, .ok v⟩ : Happened V) ∈ events := by
  obtain ⟨first, r, loaded, after⟩ := runs_bind run
  cases after with
  | threw ended =>
    obtain ⟨_, ended, _⟩ := runs_ask rfl loaded fair
    cases ended
  | @went v rest after =>
    obtain ⟨_, ended, rfl⟩ := runs_ask rfl loaded fair.append.1
    cases Except.ok.inj ended
    obtain ⟨second, r', written, last⟩ := runs_bind after
    cases last with
    | threw ended =>
      have silent := runs_write written fair.append.2
      cases silent
    | went last => exact ⟨v, (runs_done last).2, by simp⟩

/-! The losers' loop comes to its end. -/

theorem runs_sleep {ms : Int} {o : Except Err Unit} (run : Runs (sleep ms : Cached V _) events o)
    (fair : OnlyRedisFails events) :
    o = .ok () ∧ ∃ due, events = [⟨.setTimeout ms, .ok due⟩, ⟨.elapsed due, .ok ()⟩] := by
  obtain ⟨first, r, timer, after⟩ := runs_bind run
  cases after with
  | threw ended =>
    obtain ⟨_, ended, _⟩ := runs_ask rfl timer fair
    cases ended
  | @went due rest after =>
    obtain ⟨_, set, rfl⟩ := runs_ask rfl timer fair.append.1
    cases Except.ok.inj set
    obtain ⟨_, ended, rfl⟩ := runs_ask rfl after fair.append.2
    exact ⟨ended, due, rfl⟩

theorem runs_waitForWinner {deadline : Int} {o : Except Err V}
    (run : Runs (waitForWinner key deadline rounds) events o) (fair : OnlyRedisFails events) :
    ∃ v, o = .ok v ∧ Origin key events v := by
  induction rounds generalizing events with
  | zero =>
    cases run with
    | call _ =>
      obtain ⟨never, _⟩ := fair.head rfl
      exact never.elim
  | succ rounds ih =>
    obtain ⟨first, r, asked, after⟩ := runs_bind run
    cases after with
    | threw ended =>
      obtain ⟨_, ended, _⟩ := runs_ask rfl asked fair
      cases ended
    | @went now rest checked =>
      have fair' := fair.append.2
      split at checked
      · obtain ⟨second, r', slept, polled⟩ := runs_bind checked
        cases polled with
        | threw ended =>
          have awake := (runs_sleep slept fair').1
          cases awake
        | @went _ rest polled =>
          have fair'' := fair'.append.2
          obtain ⟨third, r'', got, next⟩ := runs_bind polled
          obtain ⟨reply, rfl, answered⟩ := runs_caught got
          cases next with
          | threw ended => cases answered
          | @went entry rest next =>
            cases entry with
            | some entry =>
              have found : reply = .ok (some entry) := by
                cases reply with
                | error x => cases Except.ok.inj answered
                | ok a => exact congrArg Except.ok (Except.ok.inj answered).symm
              subst found
              exact ⟨entry.v, (runs_done next).2, .cached (by simp) rfl⟩
            | none =>
              obtain ⟨v, ended, origin⟩ := ih next fair''.append.2
              exact ⟨v, ended, origin.mono fun event he => by simp [he]⟩
      · obtain ⟨v, ended, rfl⟩ := runs_ask rfl checked fair'
        exact ⟨v, ended, .loaded (by simp)⟩

/-! Only the SET NX of the miss path reaches the caller. -/

inductive FailsByLock (key : String) (events : List (Happened V)) : Except Err V → Prop where
  | resolved {v : V} : Origin key events v → (∀ event ∈ events, ¬ LockRejected event) →
      FailsByLock key events (.ok v)
  | rejected {x : Err} {event : Happened V} : event ∈ events → LockRejected event →
      FailsByLock key events (.error x)

theorem FailsByLock.after {first rest : List (Happened V)} {o : Except Err V}
    (quiet : ∀ event ∈ first, ¬ LockRejected event) (h : FailsByLock key rest o) :
    FailsByLock key (first ++ rest) o := by
  cases h with
  | resolved origin silent =>
    refine .resolved (origin.mono fun event he => List.mem_append_right _ he) fun event he => ?_
    rcases List.mem_append.mp he with early | late
    · exact quiet event early
    · exact silent event late
  | rejected mem rejected => exact .rejected (List.mem_append_right _ mem) rejected

theorem FailsByLock.before {first rest : List (Happened V)} {o : Except Err V}
    (quiet : ∀ event ∈ rest, ¬ LockRejected event) (h : FailsByLock key first o) :
    FailsByLock key (first ++ rest) o := by
  cases h with
  | resolved origin silent =>
    refine .resolved (origin.mono fun event he => List.mem_append_left _ he) fun event he => ?_
    rcases List.mem_append.mp he with early | late
    · exact silent event early
    · exact quiet event late
  | rejected mem rejected => exact .rejected (List.mem_append_left _ mem) rejected

theorem FailsByLock.of_lockless {p : Cached V V} {o : Except Err V} (only : p.Only Effect.lockless)
    (run : Runs p events o) (h : ∃ v, o = .ok v ∧ Origin key events v) : FailsByLock key events o := by
  obtain ⟨v, rfl, origin⟩ := h
  exact .resolved origin (lockless_not_rejected (runs_only run only))

theorem loadAndWrite_failsByLock {o : Except Err V}
    (run : Runs (loadAndWrite config options key) events o) (fair : OnlyRedisFails events) :
    FailsByLock key events o := by
  obtain ⟨v, ended, loaded⟩ := runs_loadAndWrite run fair
  exact .of_lockless loadAndWrite_lockless run ⟨v, ended, .loaded loaded⟩

theorem runs_acquireLock {ttlMs : Int} {o : Except Err (Option Uuid)}
    (run : Runs (acquireLock key ttlMs : Cached V _) events o) (fair : OnlyRedisFails events) :
    (∃ token, o = .ok token ∧ ∀ event ∈ events, ¬ LockRejected event) ∨
      ∃ x, o = .error x ∧ ∃ event ∈ events, LockRejected event := by
  obtain ⟨first, r, named, after⟩ := runs_bind run
  cases after with
  | threw ended =>
    obtain ⟨_, ended, _⟩ := runs_ask rfl named fair
    cases ended
  | went after =>
    obtain ⟨_, _, rfl⟩ := runs_ask rfl named fair.append.1
    obtain ⟨second, r', sent, last⟩ := runs_bind after
    obtain rfl := runs_await sent
    cases last with
    | threw ended => exact .inr ⟨_, ended, _, List.mem_append_right _ List.mem_cons_self, trivial⟩
    | went last =>
      obtain ⟨rfl, rfl⟩ := runs_done last
      refine .inl ⟨_, rfl, fun event he => ?_⟩
      rcases List.mem_append.mp he with first | second
      · rw [List.mem_singleton.mp first]
        exact id
      · rw [List.append_nil] at second
        rw [List.mem_singleton.mp second]
        exact id

theorem waitForWinner_lockless (deadline : Int) :
    (waitForWinner key deadline rounds : Cached V _).Only fun e => e.lockless ∨ e = .more := by
  induction rounds with
  | zero => exact ⟨.inr rfl, fun r => by cases r with | error x => trivial | ok never => exact never.elim⟩
  | succ rounds ih =>
    have inner {α : Type} {p : Cached V α} (h : p.Only Effect.lockless) :
        p.Only fun e => e.lockless ∨ e = .more := only_mono (fun _ => .inl) h
    refine only_bind (inner (ask_lockless trivial)) fun now => ?_
    split
    · refine only_bind (inner (sleep_lockless 20)) fun _ => ?_
      refine only_bind (inner read_lockless) fun entry => ?_
      cases entry with
      | some entry => trivial
      | none => exact ih
    · exact inner (ask_lockless trivial)

theorem runs_waitForWinner_quiet {deadline : Int} {o : Except Err V}
    (run : Runs (waitForWinner key deadline rounds) events o) (fair : OnlyRedisFails events) :
    ∀ event ∈ events, ¬ LockRejected event := by
  apply lockless_not_rejected
  intro event he
  rcases runs_only run (waitForWinner_lockless deadline) event he with lockless | more
  · exact lockless
  · obtain ⟨e, r⟩ := event
    subst more
    obtain ⟨never, _⟩ := fair _ he rfl
    exact never.elim

theorem singleFlight_failsByLock {o : Except Err V}
    (run : Runs (singleFlight config options key rounds) events o) (fair : OnlyRedisFails events) :
    FailsByLock key events o := by
  obtain ⟨first, r, locked, after⟩ := runs_bind run
  cases after with
  | threw ended =>
    rcases runs_acquireLock locked fair with ⟨_, ended, _⟩ | ⟨x, _, event, mem, rejected⟩
    · cases ended
    · rw [ended]
      exact .rejected mem rejected
  | @went token rest after =>
    obtain ⟨fair₁, fair₂⟩ := fair.append
    rcases runs_acquireLock locked fair₁ with ⟨_, _, quiet⟩ | ⟨_, ended, _⟩
    · cases token with
      | some token =>
        obtain ⟨second, r', last, o', worked, released, rfl, rfl⟩ := runs_ensure after
        obtain ⟨_, _, rfl⟩ := runs_caught released
        have silent := lockless_not_rejected (runs_only released releaseLock_lockless)
        exact .after quiet (.before silent (loadAndWrite_failsByLock worked fair₂.append.1))
      | none =>
        obtain ⟨second, r', asked, waiting⟩ := runs_bind after
        cases waiting with
        | threw ended =>
          obtain ⟨_, ended, _⟩ := runs_ask rfl asked fair₂
          cases ended
        | went waiting =>
          have fair₃ := fair₂.append.2
          obtain ⟨v, rfl, origin⟩ := runs_waitForWinner waiting fair₃
          have calm := lockless_not_rejected (runs_only asked (ask_lockless trivial))
          have silent := runs_waitForWinner_quiet waiting fair₃
          exact .after quiet (.after calm (.resolved origin silent))
    · cases ended

theorem failsByLock_served {p : Cached V V} {o : Except Err (Served V)}
    (run : Runs (do return { value := ← p }) events o)
    (h : ∀ r, Runs p events r → FailsByLock key events r) :
    FailsByLock key events (o.map (·.value)) := by
  obtain ⟨first, r, inner, after⟩ := runs_bind run
  cases after with
  | threw ended =>
    subst ended
    exact h _ inner
  | went after =>
    obtain ⟨rfl, rfl⟩ := runs_done after
    rw [List.append_nil] at h ⊢
    exact h _ inner

theorem getOrLoad_failsByLock {o : Except Err (Served V)}
    (run : Runs (getOrLoad config options key rounds) events o) (fair : OnlyRedisFails events) :
    FailsByLock key events (o.map (·.value)) := by
  unfold getOrLoad at run
  split at run
  · refine failsByLock_served run fun r inner => ?_
    obtain ⟨v, rfl, rfl⟩ := runs_ask rfl inner fair
    exact .of_lockless (ask_lockless (e := .load key) trivial) inner ⟨v, rfl, .loaded (by simp)⟩
  · obtain ⟨first, r, got, after⟩ := runs_bind run
    have quiet := lockless_not_rejected (runs_only got read_lockless)
    obtain ⟨reply, rfl, answered⟩ := runs_caught got
    cases after with
    | threw ended => cases answered
    | @went entry rest after =>
      have fair₁ := fair.append.2
      obtain ⟨second, r', asked, chosen⟩ := runs_bind after
      have calm := lockless_not_rejected (runs_only asked (ask_lockless trivial))
      cases chosen with
      | threw ended =>
        obtain ⟨_, ended, _⟩ := runs_ask rfl asked fair₁
        cases ended
      | went chosen =>
        have fair₂ := fair₁.append.2
        cases entry with
        | some entry =>
          -- the entry that is served is the one that was read
          have found : reply = .ok (some entry) := by
            cases reply with
            | error x => cases Except.ok.inj answered
            | ok a => exact congrArg Except.ok (Except.ok.inj answered).symm
          subst found
          have hit : FailsByLock key [⟨.get key, .ok (some entry)⟩] (.ok entry.v) :=
            .resolved (.cached (by simp) rfl) quiet
          simp only at chosen
          split at chosen
          · obtain ⟨rfl, rfl⟩ := runs_done chosen
            rw [List.append_nil]
            exact hit.before calm
          · split at chosen
            · obtain ⟨rfl, rfl⟩ := runs_done chosen
              rw [List.append_nil]
              exact hit.before calm
            · refine .after quiet (.after calm ?_)
              exact failsByLock_served chosen fun r inner => loadAndWrite_failsByLock inner fair₂
        | none =>
          refine .after quiet (.after calm ?_)
          simp only at chosen
          split at chosen
          · exact failsByLock_served chosen fun r inner => singleFlight_failsByLock inner fair₂
          · exact failsByLock_served chosen fun r inner => loadAndWrite_failsByLock inner fair₂

theorem refreshInBackground_caught {o : Except Err Unit}
    (run : Runs (refreshInBackground (V := V) config options key) events o) : o = .ok () := by
  rcases runs_handle run with ⟨a, rfl, _⟩ | ⟨_, _, _, _, caught, rfl⟩
  · rfl
  · exact (runs_done caught).2

/-! No call goes round its loop for ever. -/

theorem lockless_ends {α : Type} {p : Cached V α} (waits : Awaits p events .more)
    (only : p.Only Effect.lockless) : False := only.awaits waits

theorem next_round {deadline t now due : Int} {k : Nat} (late : deadline ≤ t + 20 * k)
    (later : t ≤ now) (early : now < deadline) (timer : now + 20 ≤ due) :
    ∃ k', k = k' + 1 ∧ deadline ≤ max now due + 20 * k' := ⟨k - 1, by omega, by omega⟩

/- Each round takes twenty milliseconds at least, so that `k` more rounds reach the deadline. -/
theorem waitForWinner_ends {deadline t : Int} {k : Nat} (enough : k < rounds)
    (late : deadline ≤ t + 20 * k) (clocked : Clocked t events) (fair : OnlyRedisFails events) :
    ¬ Awaits (waitForWinner (V := V) key deadline rounds) events .more := by
  induction rounds generalizing k t events with
  | zero => omega
  | succ rounds ih =>
    intro waits
    rcases awaits_bind waits with asking | ⟨now, first, rest, asked, checking, rfl⟩
    · exact lockless_ends asking (ask_lockless trivial)
    · obtain ⟨_, same, rfl⟩ := runs_ask rfl asked fair.append.1
      cases Except.ok.inj same
      obtain ⟨later, clocked₁⟩ : t ≤ (now : Int) ∧ Clocked now rest := clocked
      have fair₁ := fair.append.2
      split at checking
      · rename_i early
        rcases awaits_bind checking with napping | ⟨_, second, rest, slept, polling, rfl⟩
        · exact lockless_ends napping (sleep_lockless 20)
        · obtain ⟨_, due, rfl⟩ := runs_sleep slept fair₁.append.1
          obtain ⟨timer, clocked₂⟩ : now + 20 ≤ due ∧ Clocked (max now due) rest := clocked₁
          obtain ⟨k, rfl, late'⟩ := next_round late later early timer
          have fair₂ := fair₁.append.2
          rcases awaits_bind polling with reading | ⟨entry, third, rest, got, next, rfl⟩
          · exact lockless_ends reading read_lockless
          · obtain ⟨reply, rfl, _⟩ := runs_caught got
            have clocked₃ : Clocked (max now due) rest := clocked₂
            cases entry with
            | some entry => cases next
            | none => exact ih (by omega) late' clocked₃ fair₂.append.2 next
      · exact lockless_ends checking (ask_lockless trivial)

theorem acquireLock_ends {ttlMs : Int} :
    ¬ Awaits (acquireLock (V := V) key ttlMs) events .more := by
  intro waits
  rcases awaits_bind waits with naming | ⟨_, first, rest, _, sending, rfl⟩
  · exact lockless_ends naming (ask_lockless trivial)
  · rcases awaits_bind sending with sending | ⟨_, _, _, _, ended, _⟩
    · cases sending with
      | there ended => rename_i r; cases r <;> cases ended
    · cases ended

theorem singleFlight_ends {t : Int} (enough : 100 < rounds) (clocked : Clocked t events)
    (fair : OnlyRedisFails events) :
    ¬ Awaits (singleFlight (V := V) config options key rounds) events .more := by
  intro waits
  rcases awaits_bind waits with locking | ⟨token, first, rest, locked, next, rfl⟩
  · exact acquireLock_ends locking
  · have fair₁ := fair.append.2
    cases token with
    | some token =>
      exact lockless_ends next (only_ensure loadAndWrite_lockless releaseLock_lockless)
    | none =>
      rcases awaits_bind next with asking | ⟨now, second, rest, asked, waiting, rfl⟩
      · exact lockless_ends asking (ask_lockless trivial)
      · obtain ⟨_, same, rfl⟩ := runs_ask rfl asked fair₁.append.1
        cases Except.ok.inj same
        obtain ⟨t', clocked'⟩ := clocked.rest
        obtain ⟨_, clocked₂⟩ : t' ≤ now ∧ Clocked now rest := clocked'
        exact waitForWinner_ends (k := 100) enough (by omega) clocked₂ fair₁.append.2 waiting

theorem served_ends {p : Cached V V} (ends : ¬ Awaits p events .more) :
    ¬ Awaits (do return { value := ← p : Served V } : Cached V (Served V)) events .more := by
  intro waits
  rcases awaits_bind waits with inner | ⟨_, _, _, _, ended, _⟩
  · exact ends inner
  · cases ended

theorem getOrLoad_ends {t : Int} (enough : 100 < rounds) (clocked : Clocked t events)
    (fair : OnlyRedisFails events) :
    ¬ Awaits (getOrLoad (V := V) config options key rounds) events .more := by
  unfold getOrLoad
  split
  · exact served_ends fun waits => lockless_ends waits (ask_lockless trivial)
  · intro waits
    rcases awaits_bind waits with reading | ⟨entry, first, rest, _, asking, rfl⟩
    · exact lockless_ends reading read_lockless
    · rcases awaits_bind asking with asking | ⟨now, second, rest, _, choosing, rfl⟩
      · exact lockless_ends asking (ask_lockless trivial)
      · have fair₂ := fair.append.2.append.2
        obtain ⟨t', clocked₁⟩ := clocked.rest
        obtain ⟨t'', clocked₂⟩ := clocked₁.rest
        have loads : ¬ Awaits (do return { value := ← loadAndWrite config options key : Served V } :
            Cached V (Served V)) rest .more :=
          served_ends fun waits => lockless_ends waits loadAndWrite_lockless
        cases entry with
        | some entry =>
          simp only at choosing
          split at choosing
          · cases choosing
          · split at choosing
            · cases choosing
            · exact loads choosing
        | none =>
          simp only at choosing
          split at choosing
          · exact served_ends (singleFlight_ends enough clocked₂ fair₂) choosing
          · exact loads choosing

/-- Every call ends, on every pattern of Redis failures, and it resolves to a value that was loaded
or cached if and only if no SET NX of its lock is rejected. -/
theorem resolves_iff_lock (config : CacheConfig) (options : CacheOptions) (key : String)
    (rounds : Nat) (enough : 100 < rounds) (t : Int) (events : List (Happened V))
    (clocked : Clocked t events) (fair : OnlyRedisFails events) :
    ¬ Awaits (getOrLoad (V := V) config options key rounds) events .more ∧
    ∀ o, Runs (getOrLoad config options key rounds) events o →
      ((∃ served, o = .ok served ∧ Origin key events served.value) ↔
        ∀ event ∈ events, ¬ LockRejected event) := by
  refine ⟨getOrLoad_ends enough clocked fair, fun o run => ?_⟩
  have ends := getOrLoad_failsByLock run fair
  cases o with
  | ok served =>
    cases ends with
    | resolved origin silent => exact ⟨fun _ => silent, fun _ => ⟨served, rfl, origin⟩⟩
  | error x =>
    cases ends with
    | rejected mem rejected =>
      constructor
      · rintro ⟨_, ended, _⟩
        cases ended
      · exact fun silent => absurd rejected (silent _ mem)

/- Every command fails but the SET NX. -/
def lockOnly : List (Happened Nat) :=
  [⟨.get "cache:event:e", .error redisDown⟩, ⟨.dateNow, .ok 0⟩, ⟨.randomUUID, .ok "u"⟩,
    ⟨.setNx "lock:cache:event:e" "u" 5000, .ok true⟩, ⟨.load "cache:event:e", .ok 7⟩,
    ⟨.dateNow, .ok 4⟩, ⟨.set "cache:event:e" ⟨7, 30004⟩ 90, .error redisDown⟩,
    ⟨.releaseLock "lock:cache:event:e" "u", .error redisDown⟩]

theorem resolves_iff_lock_only : ∃ served, Runs (getOrLoad noJitter {} "cache:event:e" 101) lockOnly
    (.ok served) ∧ Origin "cache:event:e" lockOnly served.value := by
  have fair : OnlyRedisFails lockOnly := by simp [OnlyRedisFails, lockOnly, Effect.command]
  have clocked : Clocked 0 lockOnly := by simp [Clocked, lockOnly]
  have quiet : ∀ event ∈ lockOnly, ¬ LockRejected event := by simp [lockOnly, LockRejected]
  have run : Runs (getOrLoad noJitter {} "cache:event:e" 101) lockOnly (.ok { value := 7 }) :=
    .call (.call (.call (.call (.call (.call (.call (.call .done)))))))
  obtain ⟨_, ends⟩ := resolves_iff_lock noJitter {} "cache:event:e" 101 (by decide) 0 lockOnly clocked
    fair
  obtain ⟨served, same, origin⟩ := (ends _ run).mpr quiet
  exact ⟨served, same ▸ run, origin⟩

/- A miss whose SET NX is rejected rejects too, and the load function is never asked. -/
theorem lock_failure_rejects : ∃ events : List (Happened Nat), OnlyRedisFails events ∧
    Clocked 0 events ∧ Runs (getOrLoad {} {} "cache:event:e" 101) events (.error redisDown) := by
  refine ⟨[⟨.get "cache:event:e", .ok none⟩, ⟨.dateNow, .ok 0⟩, ⟨.randomUUID, .ok "u"⟩,
    ⟨.setNx "lock:cache:event:e" "u" 5000, .error redisDown⟩], ?_, ?_, ?_⟩
  · simp [OnlyRedisFails, Effect.command]
  · simp [Clocked]
  · exact .call (.call (.call (.call .fail)))

end Overbook.Redis
