import Overbook.Async.Linearizable
import Overbook.Async.Past
import Overbook.Redis.Machine

/-! How old an answer of the cache may be. An entry lives for its time to live, and it was loaded
not long before it was written; so whatever is read from it was in the database lately. -/
namespace Overbook.Redis

open Async Prog

variable {V : Type}

abbrev CacheEvent (V : Type) := Prog.Event (Effect.Answer (V := V)) Err

/- `Math.random` draws from 0 up to 1. -/
def Drawn : CacheEvent V → Prop
  | ⟨.random, .ok q⟩ => (0 : Rat) ≤ q ∧ q < 1
  | _ => True

def CacheEvent.reads : CacheEvent V → Bool
  | ⟨.get _, _⟩ => true
  | _ => false

/-- Where a call has a value from: the last entry that it has read, or its own load function, run
after all its reads. -/
inductive Source (config : CacheConfig) (key : String) (past : List (CacheEvent V)) (v : V) :
    Prop where
  | read {before after : List (CacheEvent V)} {freshUntil : Int} : config.enabled = true →
      past = before ++ ⟨.get key, .ok (some ⟨v, freshUntil⟩)⟩ :: after →
      (∀ y ∈ after, y.reads = false) → Source config key past v
  | loaded {before after : List (CacheEvent V)} : past = before ++ ⟨.load key, .ok v⟩ :: after →
      (∀ y ∈ after, y.reads = false) → Source config key past v

def longest (config : CacheConfig) : Int :=
  max 1 (config.ttlSeconds + max 0 config.ttlJitterSeconds) + max 0 config.staleSeconds

/-- A call writes what it has loaded, and answers what it has read or loaded. -/
def Asks (config : CacheConfig) (key : String) (past : List (CacheEvent V)) : Effect V → Prop
  | .set key' envelope ttlSeconds =>
    key' = key ∧ ⟨.load key, .ok envelope.v⟩ ∈ past ∧ ttlSeconds ≤ longest config
  | .answer r => ∀ v, r = .ok v → Source config key past v
  | _ => True

structure Carried (config : CacheConfig) (key : String) (past : List (CacheEvent V)) (v : V) :
    Prop where
  source : Source config key past v
  loaded : ⟨.load key, .ok v⟩ ∈ past

variable {config : CacheConfig} {key : String} {past : List (CacheEvent V)} {v : V}

theorem Source.snoc {y : CacheEvent V} (h : Source config key past v) (quiet : y.reads = false) :
    Source config key (past ++ [y]) v := by
  have still : ∀ {after : List (CacheEvent V)}, (∀ x ∈ after, x.reads = false) →
      ∀ x ∈ after ++ [y], x.reads = false := by
    intro after before x hx
    rcases List.mem_append.mp hx with old | new
    · exact before x old
    · cases List.mem_singleton.mp new
      exact quiet
  cases h with
  | @read before after _ enabled whole unread =>
    have longer := congrArg (· ++ [y]) whole
    simp only [List.append_assoc, List.cons_append] at longer
    exact .read enabled longer (still unread)
  | @loaded before after whole unread =>
    have longer := congrArg (· ++ [y]) whole
    simp only [List.append_assoc, List.cons_append] at longer
    exact .loaded longer (still unread)

theorem Carried.snoc {y : CacheEvent V} (h : Carried config key past v) (quiet : y.reads = false) :
    Carried config key (past ++ [y]) v :=
  ⟨h.source.snoc quiet, List.mem_append_left _ h.loaded⟩

def Effect.Mute : Effect V → Prop
  | .get _ => False
  | .set .. => False
  | .answer _ => False
  | _ => True

theorem mute_asks {e : Effect V} (mute : e.Mute) : Asks config key past e := by
  cases e with
  | set => exact mute.elim
  | answer => exact mute.elim
  | _ => trivial

theorem mute_reads {e : Effect V} (mute : e.Mute) (r : Except Err e.Answer) :
    CacheEvent.reads ⟨e, r⟩ = false := by
  cases e with
  | get => exact mute.elim
  | _ => rfl

theorem mute_heeds {α : Type} {p : Cached V α} (only : p.Only Effect.Mute) :
    p.Heeds Drawn (Asks config key) (fun _ _ => True) past :=
  heeds_only only (fun _ _ _ mute => ⟨mute_asks mute, fun _ => trivial⟩) trivial

theorem mute_source {α : Type} {p : Cached V α} (only : p.Only Effect.Mute)
    (h : Source config key past v) :
    p.Heeds Drawn (Asks config key) (fun past _ => Source config key past v) past :=
  heeds_only only (fun _ _ source mute =>
    ⟨mute_asks mute, fun r => source.snoc (mute_reads mute r)⟩) h

theorem jitter_le {jitter : Int} {q : Rat} (some : 0 ≤ jitter) (below : q < 1) :
    (q * ((jitter : Rat) + 1)).floor ≤ jitter := by
  have width : (0 : Rat) < jitter + 1 := by exact_mod_cast Int.lt_add_one_of_le some
  have less : q * ((jitter : Rat) + 1) < (jitter + 1 : Int) := by
    push_cast
    calc q * ((jitter : Rat) + 1) < 1 * ((jitter : Rat) + 1) := mul_lt_mul_of_pos_right below width
      _ = jitter + 1 := one_mul _
  exact Int.lt_add_one_iff.mp (Rat.floor_lt_iff.mpr less)

theorem ttlWithJitter_heeds (base jitter : Int) (h : Carried config key past v) :
    (ttlWithJitter base jitter : Cached V Int).Heeds Drawn (Asks config key)
      (fun past r => Carried config key past v ∧ ∀ ttl, r = .ok ttl → ttl ≤ max 1 (base + max 0 jitter))
      past := by
  unfold ttlWithJitter
  split
  · refine ⟨h, fun ttl same => ?_⟩
    cases Except.ok.inj same
    omega
  · next positive =>
    apply heeds_bind
    refine heeds_await trivial fun r drawn => ?_
    cases r with
    | error x => exact ⟨h.snoc rfl, nofun⟩
    | ok q =>
      refine ⟨h.snoc rfl, fun ttl same => ?_⟩
      cases Except.ok.inj same
      have offset := jitter_le (Int.le_of_lt (Int.not_le.mp positive)) drawn.2
      omega

/- What has been loaded is written for the longest time at most. -/
theorem write_heeds (h : Carried config key past v) :
    (write config {} key v).Heeds Drawn (Asks config key)
      (fun past _ => Source config key past v) past := by
  apply heeds_bind
  refine (ttlWithJitter_heeds _ _ h).mono fun past r fresh => ?_
  obtain ⟨carried, short⟩ := fresh
  cases r with
  | error x => exact carried.source
  | ok freshSeconds =>
    have bound := short freshSeconds rfl
    apply heeds_bind
    refine heeds_await trivial fun r _ => ?_
    have later := carried.snoc (y := ⟨.dateNow, r⟩) rfl
    cases r with
    | error x => exact later.source
    | ok now =>
      apply heeds_handle
      refine heeds_await ⟨rfl, later.loaded, ?_⟩ fun r _ => ?_
      · have short : freshSeconds ≤ max 1 (config.ttlSeconds + max 0 config.ttlJitterSeconds) := bound
        unfold longest
        omega
      · have last := later.source.snoc (y := ⟨.set key ⟨v, now + freshSeconds * 1000⟩
          (freshSeconds + config.staleSeconds), r⟩) rfl
        cases r <;> exact last

def Ends (config : CacheConfig) (key : String) (past : List (CacheEvent V)) (r : Except Err V) :
    Prop := ∀ v, r = .ok v → Source config key past v

theorem ends_ok (h : Source config key past v) : Ends config key past (.ok v) :=
  fun _ same => Except.ok.inj same ▸ h

theorem load_heeds (past : List (CacheEvent V)) :
    (ask (.load key) : Cached V V).Heeds Drawn (Asks config key)
      (fun past r => ∀ v, r = .ok v → Carried config key past v) past := by
  refine heeds_await trivial fun r _ => ?_
  rintro v rfl
  exact ⟨.loaded rfl nofun, List.mem_append_right _ (List.mem_singleton_self _)⟩

theorem loadAndWrite_heeds (past : List (CacheEvent V)) :
    (loadAndWrite config {} key).Heeds Drawn (Asks config key) (Ends config key) past := by
  apply heeds_bind
  refine (load_heeds past).mono fun past r carried => ?_
  cases r with
  | error x => exact nofun
  | ok value =>
    apply heeds_bind
    refine (write_heeds (carried value rfl)).mono fun past r source => ?_
    cases r with
    | error x => exact nofun
    | ok u => exact ends_ok source

/- An entry that is found is the last thing read. -/
theorem read_heeds (enabled : config.enabled = true) (past : List (CacheEvent V)) :
    (read key : Cached V _).Heeds Drawn (Asks config key)
      (fun past r => ∀ entry, r = .ok (some entry) → Source config key past entry.v) past := by
  apply heeds_handle
  refine heeds_await trivial fun r _ => ?_
  cases r with
  | error x => exact nofun
  | ok found =>
    rintro entry same
    cases Except.ok.inj same
    exact .read enabled rfl nofun

theorem mute_ask {e : Effect V} (mute : e.Mute) : (ask e).Only Effect.Mute := (only_await e).mpr mute

theorem sleep_mute (ms : Int) : (sleep ms : Cached V Unit).Only Effect.Mute :=
  only_bind (mute_ask trivial) fun _ => mute_ask trivial

theorem releaseLock_mute (key token : String) :
    (releaseLock key token : Cached V Unit).Only Effect.Mute :=
  only_handle (mute_ask trivial) fun _ => trivial

theorem acquireLock_mute (key : String) (ttlMs : Int) :
    (acquireLock key ttlMs : Cached V _).Only Effect.Mute :=
  only_bind (mute_ask trivial) fun _ => only_bind (mute_ask trivial) fun _ => trivial

theorem mute_bind {α β : Type} {p : Cached V α} {f : α → Cached V β}
    {ends : List (CacheEvent V) → Except Err β → Prop} (only : p.Only Effect.Mute)
    (next : ∀ a past, (f a).Heeds Drawn (Asks config key) ends past)
    (stop : ∀ x past, ends past (.error x)) :
    (p >>= f).Heeds Drawn (Asks config key) ends past := by
  apply heeds_bind
  refine (mute_heeds only).mono fun past r _ => ?_
  cases r with
  | ok a => exact next a past
  | error x => exact stop x past

theorem waitForWinner_heeds (enabled : config.enabled = true) (deadline : Int) (n : Nat)
    (past : List (CacheEvent V)) :
    (waitForWinner key deadline n).Heeds Drawn (Asks config key) (Ends config key) past := by
  induction n generalizing past with
  | zero => exact mute_bind (mute_ask trivial) (fun never => never.elim) fun _ _ => nofun
  | succ n ih =>
    refine mute_bind (mute_ask trivial) (fun now past => ?_) fun _ _ => nofun
    split
    · refine mute_bind (sleep_mute 20) (fun _ past => ?_) fun _ _ => nofun
      apply heeds_bind
      refine (read_heeds enabled past).mono fun past r found => ?_
      match r with
      | .error x => exact nofun
      | .ok none => exact ih past
      | .ok (some entry) => exact ends_ok (found entry rfl)
    · exact (load_heeds past).mono fun _ _ carried v same => (carried v same).source

theorem singleFlight_heeds (enabled : config.enabled = true) (rounds : Nat)
    (past : List (CacheEvent V)) :
    (singleFlight config {} key rounds).Heeds Drawn (Asks config key) (Ends config key) past := by
  refine mute_bind (acquireLock_mute _ _) (fun won past => ?_) fun _ _ => nofun
  cases won with
  | some token =>
    apply heeds_ensure
    refine (loadAndWrite_heeds past).mono fun past r ends => ?_
    cases r with
    | error x => exact (mute_heeds (releaseLock_mute ..)).mono fun _ u _ => by cases u <;> exact nofun
    | ok v =>
      refine (mute_source (releaseLock_mute ..) (ends v rfl)).mono fun past u source => ?_
      cases u with
      | error x => exact nofun
      | ok u => exact ends_ok source
  | none =>
    refine mute_bind (mute_ask trivial) (fun now past => ?_) fun _ _ => nofun
    exact waitForWinner_heeds enabled _ rounds past

theorem getOrLoad_heeds (rounds : Nat) (past : List (CacheEvent V)) :
    (getOrLoad config {} key rounds).Heeds Drawn (Asks config key)
      (fun past r => Ends config key past (r.map (·.value))) past := by
  have wrap : ∀ {p : Cached V V} {past}, p.Heeds Drawn (Asks config key) (Ends config key) past →
      (do return { value := ← p } : Cached V (Served V)).Heeds Drawn (Asks config key)
        (fun past r => Ends config key past (r.map (·.value))) past := by
    intro p past h
    apply heeds_bind
    refine h.mono fun past r ends => ?_
    cases r <;> exact ends
  unfold getOrLoad
  split
  · exact wrap ((load_heeds past).mono fun _ _ carried v same => (carried v same).source)
  · next enabled =>
    have enabled : config.enabled = true := by simpa using enabled
    apply heeds_bind
    refine (read_heeds enabled past).mono fun past r found => ?_
    cases r with
    | error x => exact nofun
    | ok entry =>
      apply heeds_bind
      refine heeds_await trivial fun r _ => ?_
      cases r with
      | error x => exact nofun
      | ok now =>
        cases entry with
        | some entry =>
          have hit := (found entry rfl).snoc (y := ⟨.dateNow, .ok now⟩) rfl
          simp only
          split
          · exact ends_ok hit
          · split
            · exact ends_ok hit
            · exact wrap (loadAndWrite_heeds _)
        | none =>
          simp only
          split
          · exact wrap (singleFlight_heeds enabled rounds _)
          · exact wrap (loadAndWrite_heeds _)

theorem refreshInBackground_heeds (past : List (CacheEvent V)) :
    (refreshInBackground config {} key).Heeds Drawn (Asks config key) (fun _ _ => True) past := by
  apply heeds_handle
  refine mute_bind (acquireLock_mute _ _) (fun won past => ?_) fun _ _ => trivial
  cases won with
  | none => trivial
  | some token =>
    apply heeds_ensure
    apply heeds_bind
    refine (loadAndWrite_heeds past).mono fun past r _ => ?_
    have released : (releaseLock (lockKey key) token : Cached V Unit).Heeds Drawn
        (Asks config key) (fun _ _ => True) past := mute_heeds (releaseLock_mute ..)
    cases r with
    | error x => exact released.mono fun _ u _ => by cases u <;> trivial
    | ok v => exact released.mono fun _ u _ => by cases u <;> trivial

/-- All that a call asks for, to the end of what it leaves running. -/
theorem serve_heeds (rounds : Nat) (past : List (CacheEvent V)) :
    (serve config {} key rounds).Heeds Drawn (Asks config key) (fun _ _ => True) past := by
  apply heeds_bind
  apply heeds_outcome
  refine (getOrLoad_heeds rounds past).mono fun past r ends => ?_
  apply heeds_bind
  refine heeds_await ends fun r' _ => ?_
  cases r' with
  | error x => trivial
  | ok u =>
    cases r with
    | error x => trivial
    | ok served =>
      unfold runIf
      simp only
      split
      · exact refreshInBackground_heeds _
      · trivial

/-! The two ways to read one event. -/

section

variable {Dto : Type}

/- Both answer null with a 404. -/
def found (id : String) : Option Dto → Except Err Dto
  | some event => .ok event
  | none => .error (.notFound s!"Event {id} not found")

def findOne (config : CacheConfig) (id : String) (rounds : Nat) : Cached (Option Dto) Dto := do
  let cached ← getOrLoad config {} (eventCacheKey id) rounds
  Prog.ofExcept (found id cached.value)

def findOneUncached (id : String) : Cached (Option Dto) Dto := do
  let event ← ask (.load (eventCacheKey id))
  Prog.ofExcept (found id event)

end

theorem findOne_runs {Dto : Type} {config : CacheConfig} {id : String} {rounds : Nat}
    {events : List (CacheEvent (Option Dto))} {o : Except Err Dto}
    (run : Runs (findOne config id rounds) events o) :
    ∃ r, Runs (getOrLoad config {} (eventCacheKey id) rounds) events r ∧
      o = r.bind fun cached => found id cached.value := by
  obtain ⟨first, r, loaded, after⟩ := runs_bind run
  cases after with
  | threw ended => exact ⟨_, loaded, ended⟩
  | went after =>
    obtain ⟨rfl, rfl⟩ := runs_ofExcept after
    exact ⟨_, by simpa using loaded, rfl⟩

/-! The history of the cache. -/

abbrev CacheHistory (V : Type) := List (Async.Entry (CacheStore V) (Effect.Answer (V := V)) Err)

def Effect.sets : Effect V → Bool
  | .set .. => true
  | _ => false

def Effect.loads : Effect V → Bool
  | .load _ => true
  | _ => false

/-- A call has written what it has loaded within `D` milliseconds of its load. -/
def Prompt (D : Nat) (entries : CacheHistory V) : Prop :=
  ∀ x ∈ entries, ∀ y ∈ entries, y.task = x.task → x.effect.sets = true → y.effect.loads = true →
    x.before.clock ≤ y.before.clock + D

/-- How old an answer may be, in milliseconds, with a delay of `D` between a load and the end of
its write. -/
def staleness (config : CacheConfig) (D : Nat) : Int := longest config * 1000 + D

theorem staleness_nonneg (config : CacheConfig) (D : Nat) : 0 ≤ staleness config D := by
  unfold staleness longest
  omega

def request (ids : Tid → String) (afters : Tid → Nat) (t : Tid) : Call :=
  { key := eventCacheKey (ids t), after := afters t }

/-- Only `findOne` calls the cache: task `t` asks for the event `ids t`. -/
def Finds (ids : Tid → String) (afters : Tid → Nat) (_ : Calls V) (a : Act Call Choice (Ext V)) :
    Prop := ∀ t call, a = .start t call → call = request ids afters t

variable {rounds : Nat} {clock : Int} {database : String → V} {D : Nat} {ids : Tid → String}
  {afters : Tid → Nat} {p q : Calls V}
  {entries : CacheHistory V} {t : Tid}

theorem exec_drawn {e : Effect V} {c : Choice} {s s' : CacheStore V} {r : Except Err e.Answer}
    (h : exec t s e c = some (s', r)) : Drawn ⟨e, r⟩ := by
  cases e with
  | random =>
    cases c with
    | random q =>
      simp only [exec] at h
      split at h
      · next unit =>
        cases h
        exact unit
      · cases h
    | _ => cases h
  | _ => trivial

abbrev CacheRun (config : CacheConfig) (rounds : Nat) (clock : Int) (database : String → V)
    (ids : Tid → String) (afters : Tid → Nat) : CacheHistory V → Calls V → Prop :=
  (cache V config rounds).History (Finds ids afters) (emptyCache clock database)

theorem finds_asks (history : CacheRun config rounds clock database ids afters entries q)
    {j : Call} {e : Effect V} {k : Except Err e.Answer → Cached V Unit}
    (live : q.slot t = .live j e k) :
    Asks config (eventCacheKey (ids t)) (eventsOf t entries) e := by
  have assigned : ∀ t j, (q.slot t).job = some j → some (request ids afters t) = some j :=
    history.reach.jobs fun r a ok t j start => congrArg some (ok t j start).symm
  cases Option.some.inj (assigned t j (by rw [live]; rfl))
  have code : ((cache V config rounds).code (request ids afters t)).Heeds Drawn
      (Asks config (eventCacheKey (ids t))) (fun _ _ => True) [] := serve_heeds rounds []
  exact history.asks (fun _ _ _ _ _ _ => exec_drawn) code live

theorem cache_settle {call : Call} {s : CacheStore V} {b : Cached V Unit} :
    ((cache V config rounds).settle t call s b).1 = s := by
  cases b <;> rfl

theorem moves_clock {e : Effect V} {s s' : CacheStore V} (moves : Moves t s e s') :
    s'.clock = s.clock := by
  cases moves with
  | released => unfold CacheStore.release; split <;> rfl
  | _ => rfl

theorem step_clock {a : Act Call Choice (Ext V)} (st : (cache V config rounds).step p a = some q) :
    p.shared.clock ≤ q.shared.clock := by
  cases Machine.steps_of_step st with
  | start idle ready => exact le_of_eq (congrArg CacheStore.clock cache_settle).symm
  | step live answered =>
    have same := moves_clock (exec_moves answered)
    exact le_of_eq ((congrArg CacheStore.clock cache_settle).trans same).symm
  | kill live => exact le_rfl
  | @env x s happened =>
    cases x with
    | tick d =>
      simp only [cache, ext] at happened
      split at happened
      · next later =>
        cases happened
        exact le_add_of_nonneg_right later
      · cases happened
    | commit database => cases happened; exact le_rfl
    | del key version => cases happened; exact le_rfl

theorem clocks (history : CacheRun config rounds clock database ids afters entries q) :
    ∀ y ∈ entries, y.before.clock ≤ q.shared.clock := by
  induction history with
  | refl => exact nofun
  | @step entries r r' a _ ok st ih =>
    intro y hy
    rcases List.mem_append.mp hy with old | new
    · exact (ih y old).trans (step_clock st)
    · have before : y.before = r.shared := by
        unfold Machine.logged at new
        split at new
        · split at new
          · split at new
            · cases List.mem_singleton.mp new
              rfl
            · cases new
          · cases new
        · cases new
      exact before ▸ step_clock st

theorem load_shown {s s' : CacheStore V} {c : Choice}
    (h : exec t s (.load key) c = some (s', .ok v)) : s.database key = v := by
  cases c with
  | ok =>
    simp only [exec, Option.some.injEq, Prod.mk.injEq, Except.ok.injEq] at h
    exact h.2
  | _ => cases h

theorem loaded_shown (history : CacheRun config rounds clock database ids afters entries q)
    {y : Async.Entry (CacheStore V) (Effect.Answer (V := V)) Err} (hy : y ∈ entries)
    (load : y.event = ⟨.load key, .ok v⟩) : y.before.database key = v := by
  obtain ⟨_, _, _, c, _, _, _, _, answered⟩ := history.answered hy
  obtain ⟨t, e, r, s, s'⟩ := y
  cases load
  exact load_shown answered

/-- A moment of the history in which the database had `v`, no longer ago than its entry in the
cache may live. -/
def Backs (config : CacheConfig) (D : Nat) (entries : CacheHistory V) (key : String) (v : V)
    (deadline : Int) : Prop :=
  ∃ y ∈ entries, y.before.database key = v ∧ deadline ≤ y.before.clock + staleness config D

theorem Prompt.before {first last : CacheHistory V} (h : Prompt D (first ++ last)) :
    Prompt D first :=
  fun x hx y hy => h x (List.mem_append_left _ hx) y (List.mem_append_left _ hy)

theorem Backs.later {deadline : Int} (h : Backs config D entries key v deadline)
    (more : CacheHistory V) : Backs config D (entries ++ more) key v deadline := by
  obtain ⟨y, hy, rest⟩ := h
  exact ⟨y, List.mem_append_left _ hy, rest⟩

/-- Whatever is in the cache was in the database, no longer before its end than the bound. -/
theorem entries_backed (history : CacheRun config rounds clock database ids afters entries q)
    (prompt : Prompt D entries) :
    ∀ key e, q.shared.entries key = some e → Backs config D entries key e.v e.expiresAt := by
  induction history with
  | refl => exact nofun
  | @step entries r r' a before ok st ih =>
    intro key e stored
    have old : r.shared.entries key = some e →
        Backs config D (entries ++ (cache V config rounds).logged r a) key e.v e.expiresAt :=
      fun stored => (ih prompt.before key e stored).later _
    cases Machine.steps_of_step st with
    | start idle ready =>
      change ((cache V config rounds).settle _ _ _ _).1.entries key = some e at stored
      rw [cache_settle] at stored
      exact old stored
    | kill live => exact old stored
    | @env x s happened =>
      cases x with
      | tick d =>
        simp only [cache, ext] at happened
        split at happened
        · cases happened
          exact old stored
        · cases happened
      | commit database => cases happened; exact old stored
      | del key' version =>
        cases happened
        by_cases same : key' = key
        · subst same
          simp [CacheStore.del] at stored
        · exact old ((Function.update_of_ne (Ne.symm same) ..).symm.trans stored)
    | @step t c j e' k s o live answered =>
      change ((cache V config rounds).settle _ _ _ _).1.entries key = some e at stored
      rw [cache_settle] at stored
      cases exec_moves answered with
      | @written key' envelope ttlSeconds lasts =>
        by_cases same : key' = key
        · subst same
          simp only [CacheStore.set, Function.update_self, Option.some.injEq] at stored
          subst stored
          obtain ⟨rfl, loaded, short⟩ := finds_asks before live
          obtain ⟨y, hy, load⟩ := List.mem_map.mp loaded
          obtain ⟨mem, own⟩ := List.mem_filter.mp hy
          have logged := Machine.logged_step live answered
          refine ⟨y, List.mem_append_left _ mem, loaded_shown before mem load, ?_⟩
          have effect : y.effect.loads = true := by
            rw [show y.effect = _ from congrArg Sigma.fst load]
            rfl
          have soon := prompt _ (List.mem_append_right _ (logged ▸ List.mem_singleton_self _)) y
            (List.mem_append_left _ mem) (beq_iff_eq.mp own) rfl effect
          unfold staleness
          simp only at soon ⊢
          omega
        · exact old ((Function.update_of_ne (Ne.symm same) ..).symm.trans stored)
      | released =>
        refine old (Eq.trans ?_ stored)
        unfold CacheStore.release
        split <;> rfl
      | _ => exact old stored

theorem get_shown {s s' : CacheStore V} {c : Choice} {envelope : CacheEnvelope V}
    (h : exec t s (.get key) c = some (s', .ok (some envelope))) :
    ∃ e, s.entries key = some e ∧ e.v = envelope.v ∧ s.clock ≤ e.expiresAt := by
  cases c with
  | ok =>
    simp only [exec, Option.some.injEq, Prod.mk.injEq, Except.ok.injEq] at h
    obtain ⟨e, live, rfl⟩ := Option.map_eq_some_iff.mp h.2
    obtain ⟨stored, lasts⟩ := Option.filter_eq_some_iff.mp live
    exact ⟨e, stored, rfl, of_decide_eq_true lasts⟩
  | _ => cases h

theorem reads_before {first : CacheHistory V} {f₁ f₂ : CacheHistory V}
    {z : Async.Entry (CacheStore V) (Effect.Answer (V := V)) Err} {limit : Int}
    (split : first = f₁ ++ z :: f₂) (early : ∀ y ∈ f₁, y.before.clock ≤ limit)
    (here : z.before.clock ≤ limit)
    (after : ∀ y ∈ eventsOf t f₂, CacheEvent.reads y = false) :
    ∀ y ∈ first, y.task = t → CacheEvent.reads y.event = true → y.before.clock ≤ limit := by
  intro y hy own reads
  rw [split] at hy
  rcases List.mem_append.mp hy with before | rest
  · exact early y before
  · rcases List.mem_cons.mp rest with rfl | late
    · exact here
    · have mem : y.event ∈ eventsOf t f₂ :=
        List.mem_map_of_mem (List.mem_filter.mpr ⟨late, beq_iff_eq.mpr own⟩)
      rw [after _ mem] at reads
      cases reads

/-- What `findOne` answers is what `findOneUncached` would have returned at some instant, no later
than the answer, and no longer than the bound before any read of the cache that the call has made;
where the cache is off, the instant is within the call. -/
theorem staleness_bounded {Dto : Type} (config : CacheConfig) (rounds : Nat) (clock : Int)
    (database : String → Option Dto) (D : Nat) (ids : Tid → String) (afters : Tid → Nat)
    (p : Calls (Option Dto)) (first last : CacheHistory (Option Dto))
    (x : Async.Entry (CacheStore (Option Dto)) Effect.Answer Err) (v : Option Dto)
    (history : CacheRun config rounds clock database ids afters (first ++ x :: last) p)
    (prompt : Prompt D (first ++ x :: last)) (answer : x.effect = .answer (.ok v)) :
    ∃ y ∈ first, y.before.clock ≤ x.before.clock ∧
      Runs (findOneUncached (ids x.task)) [⟨.load (eventCacheKey (ids x.task)),
        .ok (y.before.database (eventCacheKey (ids x.task)))⟩] (found (ids x.task) v) ∧
      (∀ z ∈ first, z.task = x.task → CacheEvent.reads z.event = true →
        z.before.clock ≤ y.before.clock + staleness config D) ∧
      (config.enabled = false → y.task = x.task) := by
  obtain ⟨r, j, k, c, before, shared, live, -, -⟩ := history.answer
  have asks := finds_asks before live
  rw [answer] at asks
  have late := fun y hy => shared ▸ clocks before y hy
  have uncached : ∀ {w : Option Dto}, w = v →
      Runs (findOneUncached (ids x.task)) [⟨.load (eventCacheKey (ids x.task)), .ok w⟩]
        (found (ids x.task) v) := by
    rintro w rfl
    cases w <;> exact .call (by constructor)
  have source := asks v rfl
  cases source with
  | @read past after freshUntil enabled whole unread =>
    obtain ⟨f₁, z, f₂, split, own, event, -, rest⟩ := eventsOf_split whole
    have cut : first ++ x :: last = f₁ ++ z :: (f₂ ++ x :: last) := by
      rw [split, List.append_assoc, List.cons_append]
    obtain ⟨r', j', k', c', earlier, shared', -, -, answered⟩ := (cut ▸ history).answer
    obtain ⟨t, e, o, s, s'⟩ := z
    cases event
    obtain ⟨entry, stored, value, lasts⟩ := get_shown answered
    have backed := entries_backed earlier (cut ▸ prompt).before _ entry (shared' ▸ stored)
    obtain ⟨y, hy, shown, bound⟩ := backed
    have mem : y ∈ first := by
      rw [split]
      exact List.mem_append_left _ hy
    have soon := fun y hy => shared' ▸ clocks earlier y hy
    refine ⟨y, mem, late y mem, uncached (shown.trans value), ?_, fun off => ?_⟩
    · refine reads_before split (fun z hz => ?_) (lasts.trans bound) (rest ▸ unread)
      exact (soon z hz).trans (lasts.trans bound)
    · rw [off] at enabled
      cases enabled
  | @loaded past after whole unread =>
    obtain ⟨f₁, z, f₂, split, own, event, -, rest⟩ := eventsOf_split whole
    have cut : first ++ x :: last = f₁ ++ z :: (f₂ ++ x :: last) := by
      rw [split, List.append_assoc, List.cons_append]
    obtain ⟨r', j', k', c', earlier, shared', -, -, -⟩ := (cut ▸ history).answer
    have mem : z ∈ first := by
      rw [split]
      exact List.mem_append_right _ (List.mem_cons_self ..)
    have whole' : z ∈ first ++ x :: last := List.mem_append_left _ mem
    have wide := le_add_of_nonneg_right (a := z.before.clock) (staleness_nonneg config D)
    refine ⟨z, mem, late z mem, uncached (loaded_shown history whole' event), ?_, fun _ => own⟩
    refine reads_before split (fun y hy => ?_) wide (rest ▸ unread)
    exact (shared' ▸ clocks earlier y hy).trans wide

def findE : Call := request (fun _ => "e") (fun _ => 0) 0

def findsE : Act Call Choice (Ext (Option Nat)) → Bool
  | .start _ j => j.key == findE.key && j.options.ttlSeconds == none && j.after == 0
  | _ => true

theorem findsE_finds (q : Calls (Option Nat)) (a : Act Call Choice (Ext (Option Nat)))
    (h : findsE a = true) : Finds (fun _ => "e") (fun _ => 0) q a := by
  rintro t ⟨key, ⟨ttlSeconds⟩, after⟩ rfl
  simp only [findsE, Bool.and_eq_true, beq_iff_eq] at h
  obtain ⟨⟨rfl, rfl⟩, rfl⟩ := h
  rfl

/- The event is loaded and changed, and 50 seconds later it is answered as it was. -/
def staleHit : List (Act Call Choice (Ext (Option Nat))) :=
  [.start 1 findE, .step 1 .ok, .step 1 .ok, .step 1 (.uuid "a"), .step 1 .ok, .step 1 .ok,
    .step 1 .ok, .step 1 .ok, .step 1 .ok, .step 1 .ok, .env (.commit fun _ => some 8),
    .env (.tick 50000), .start 2 findE, .step 2 .ok, .step 2 .ok, .step 2 .ok]

def answered (e : Effect (Option Nat)) : Option (Option Nat) :=
  match e with
  | .answer (.ok v) => some v
  | _ => none

def promptly (D : Nat) (entries : CacheHistory (Option Nat)) : Bool :=
  entries.all fun x => entries.all fun y =>
    !(y.task == x.task && x.effect.sets && y.effect.loads) || decide (x.before.clock ≤ y.before.clock + D)

theorem prompt_of_check {D : Nat} {entries : CacheHistory (Option Nat)}
    (h : promptly D entries = true) : Prompt D entries := by
  intro x hx y hy same sets loads
  have pair := List.all_eq_true.mp (List.all_eq_true.mp h x hx) y hy
  simpa [same, sets, loads] using pair

theorem staleness_bounded_stale : ∃ (first : CacheHistory (Option Nat))
    (x : Async.Entry (CacheStore (Option Nat)) Effect.Answer Err),
    x.effect = .answer (.ok (some 7)) ∧ x.before.database (eventCacheKey "e") = some 8 ∧
    ∃ y ∈ first, y.before.clock ≤ x.before.clock ∧
      Runs (findOneUncached "e") [⟨.load (eventCacheKey "e"),
        .ok (y.before.database (eventCacheKey "e"))⟩] (found "e" (some 7)) ∧
      (∀ z ∈ first, z.task = x.task → CacheEvent.reads z.event = true →
        z.before.clock ≤ y.before.clock + staleness noJitter 0) ∧
      (noJitter.enabled = false → y.task = x.task) := by
  have replay : ((cache (Option Nat) noJitter 0).replay (fun _ => findsE)
      (emptyCache 0 fun _ => some 7) staleHit).map (fun z => (promptly 0 z.1,
        z.1.getLast?.map fun x => (answered x.effect, x.before.database (eventCacheKey "e")))) =
      some (true, some (some (some 7), some 8)) := by decide +kernel
  obtain ⟨⟨entries, p⟩, hp, seen⟩ := Option.map_eq_some_iff.mp replay
  obtain ⟨checked, last⟩ := Prod.mk.inj seen
  obtain ⟨x, ending, facts⟩ := Option.map_eq_some_iff.mp last
  obtain ⟨told, now⟩ := Prod.mk.inj facts
  obtain ⟨first, rfl⟩ := List.getLast?_eq_some_iff.mp ending
  have history := Machine.History.of_replay findsE_finds .refl hp
  have answer : x.effect = .answer (.ok (some 7)) := by
    unfold answered at told
    split at told
    · next same =>
      cases told
      exact same
    · cases told
  exact ⟨first, x, answer, now, staleness_bounded noJitter 0 0 (fun _ => some 7) 0 (fun _ => "e")
    (fun _ => 0) p first [] x (some 7) history (prompt_of_check checked) answer⟩

end Overbook.Redis
