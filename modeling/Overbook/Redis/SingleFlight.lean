import Overbook.Async.Soundness
import Overbook.Redis.Machine
import Mathlib.Data.List.Nodup

/-! One load for each refill of a key, as long as nobody takes the lock behind a refill, and whoever
waits looks for the entry often enough. -/
namespace Overbook.Redis

open Async Prog

variable {V : Type}

/-- Each entry is written after one load, and a load comes only when the window of the entry
before has ended. -/
inductive OnceEach : List Flight → Prop where
  | nil : OnceEach []
  | loaded {flights : List Flight} {clock : Int} (before : OnceEach flights)
      (ended : ∀ f ∈ flights.getLast?, ∃ freshUntil ≤ clock, f = .written freshUntil) :
      OnceEach (flights ++ [.loaded clock])
  | written {flights : List Flight} {freshUntil : Int} (before : OnceEach flights)
      (once : ∃ clock, flights.getLast? = some (.loaded clock)) :
      OnceEach (flights ++ [.written freshUntil])

def Underway (flights : List Flight) : Prop := ∃ clock, flights.getLast? = some (.loaded clock)

theorem underway_loaded (flights : List Flight) (clock : Int) :
    Underway (flights ++ [.loaded clock]) := ⟨clock, by simp⟩

theorem not_underway_written (flights : List Flight) (freshUntil : Int) :
    ¬ Underway (flights ++ [.written freshUntil]) := by simp [Underway]

variable (K : String) (lockTtlMs L lag : Int)

/-- Task `t` has the lock of `K`, since this instant, and has not written its entry yet. -/
def Holds (t : Tid) (since : Int) (s : CacheStore V) : Prop :=
  s.holds t = some (lockKey K, since)

/-- At most one task holds the lock, and holds it in time; otherwise no load is underway. -/
structure Flying (s : CacheStore V) : Prop where
  once : OnceEach (s.history K)
  uuids : (s.uuids.map (·.1)).Nodup
  single : ∀ t t' a b, Holds K t a s → Holds K t' b s → t = t'
  begun : ∀ t since, Holds K t since s → since ≤ s.clock
  inTime : ∀ t since, Holds K t since s → s.clock ≤ since + L
  held : ∀ t since, Holds K t since s → ∃ l, s.locks (lockKey K) = some l ∧
    l.expiresAt = since + lockTtlMs ∧ (l.token, t) ∈ s.uuids
  landed : (∀ t since, ¬ Holds K t since s) → ¬ Underway (s.history K)
  window : ∀ freshUntil, (s.history K).getLast? = some (.written freshUntil) →
    ∃ e, s.entries K = some e ∧ e.freshUntil = freshUntil ∧ freshUntil ≤ e.expiresAt
  ended : ∀ t since freshUntil, Holds K t since s →
    (s.history K).getLast? = some (.written freshUntil) → freshUntil ≤ s.clock

/-- An entry of `K` can be read until `b`, or somebody who took the lock by `a` is to write one. -/
def Coming (a b : Int) (s : CacheStore V) : Prop :=
  (∃ t since, Holds K t since s ∧ since ≤ a) ∨ ∃ e, s.entries K = some e ∧ b ≤ e.expiresAt

/-- What a task knows of the steps of others. -/
structure Apart (t : Tid) (s s' : CacheStore V) : Prop where
  holds : s'.holds t = s.holds t
  waits : s'.waits t = s.waits t
  coming : ∀ a b, b ≤ s.clock + 1000 → Coming K a b s → Coming K a b s'
  history : ∀ since, Holds K t since s → s'.history K = s.history K
  uuids : ∀ p ∈ s.uuids, p ∈ s'.uuids
  clock : s.clock ≤ s'.clock

theorem Apart.refl (t : Tid) (s : CacheStore V) : Apart K t s s :=
  ⟨rfl, rfl, fun _ _ _ h => h, fun _ _ => rfl, fun _ h => h, le_rfl⟩

variable {K lockTtlMs L lag} {t : Tid} {s s' s'' : CacheStore V}

theorem Apart.trans (h : Apart K t s s') (h' : Apart K t s' s'') : Apart K t s s'' where
  holds := h'.holds.trans h.holds
  waits := h'.waits.trans h.waits
  coming a b near coming := h'.coming a b (by have := h.clock; omega) (h.coming a b near coming)
  history since held := by
    have held' : Holds K t since s' := h.holds.trans held
    exact (h'.history since held').trans (h.history since held)
  uuids p hp := h'.uuids p (h.uuids p hp)
  clock := h.clock.trans h'.clock

variable (K lockTtlMs lag)

/-- What a call asserts where it waits: it loads and writes as the holder of the lock, and releases
what it took. -/
def Airborne (t : Tid) (s : CacheStore V) : Effect V → Prop
  | .setNx _ token ttlMs => ttlMs = lockTtlMs ∧ (token, t) ∈ s.uuids ∧ s.holds t = none
  | .load key => key = K → (∃ since, Holds K t since s) ∧ ¬ Underway (s.history K)
  | .set key envelope ttlSeconds => 0 < ttlSeconds ∧
      envelope.freshUntil ≤ s.clock + ttlSeconds * 1000 ∧
      (key = K → (∃ since, Holds K t since s) ∧ Underway (s.history K))
  | .releaseLock _ token => (token, t) ∈ s.uuids ∧ s.holds t = none
  | _ => True

/-- A SET NX that finds the lock free is sent while there is no fresh entry, and one that finds it
taken while somebody is to write the entry, or while it can be read for two more rounds of waiting. -/
def Careful (s : CacheStore V) : Effect V → Prop
  | .setNx key _ _ => key = lockKey K →
      (s.lock key = none → ∀ e ∈ s.entry K, e.freshUntil ≤ s.clock) ∧
      ((s.lock key).isSome = true → (∃ t since, Holds K t since s) ∨
        ∃ e, s.entries K = some e ∧ s.clock + 2 * (20 + lag) ≤ e.expiresAt)
  | _ => True

/-- A round of waiting, 20 ms of sleep and what the caller does before and after, takes no more than
`lag` besides. -/
def Punctual (t : Tid) (s : CacheStore V) : Prop :=
  ∀ since, s.waits t = some (lockKey K, since) → s.clock ≤ since + 20 + lag

variable {K lockTtlMs lag}

theorem lockKey_inj {key key' : String} : lockKey key = lockKey key' ↔ key = key' :=
  String.append_right_inj _

theorem holds_set {key : String} (ne : key ≠ K) (t' : Tid) (since : Int)
    (envelope : CacheEnvelope V) (ttlSeconds : Int) :
    Holds K t' since (s.set t key envelope ttlSeconds) ↔ Holds K t' since s := by
  unfold Holds CacheStore.set
  by_cases own : (s.holds t).map (·.1) = some (lockKey key)
  · rcases eq_or_ne t' t with rfl | other
    · obtain ⟨⟨k, a⟩, held, rfl⟩ := Option.map_eq_some_iff.mp own
      have others : lockKey key ≠ lockKey K := fun same => ne (lockKey_inj.mp same)
      simp [held, others]
    · simp [own, Function.update_of_ne other]
  · simp [own]

theorem Flying.nobody (h : Flying K lockTtlMs L s) (short : L < lockTtlMs)
    (free : s.lock (lockKey K) = none) (t : Tid) (since : Int) : ¬ Holds K t since s := by
  intro held
  obtain ⟨l, locked, expires, _⟩ := h.held t since held
  have inTime := h.inTime t since held
  have live : s.clock ≤ l.expiresAt := by omega
  have there : s.lock (lockKey K) = some l :=
    Option.filter_eq_some_iff.mpr ⟨locked, decide_eq_true live⟩
  exact absurd (free.symm.trans there) nofun

theorem Flying.behind (h : Flying K lockTtlMs L s) (stale : ∀ e ∈ s.entry K, e.freshUntil ≤ s.clock)
    {freshUntil : Int} (last : (s.history K).getLast? = some (.written freshUntil)) :
    freshUntil ≤ s.clock := by
  obtain ⟨e, stored, rfl, lasts⟩ := h.window freshUntil last
  by_cases live : s.clock ≤ e.expiresAt
  · exact stale e (by simp [CacheStore.entry, stored, live])
  · omega

theorem Flying.owner (h : Flying K lockTtlMs L s) {u : Uuid} {t t' : Tid} (own : (u, t) ∈ s.uuids)
    (own' : (u, t') ∈ s.uuids) : t = t' := by
  have same := List.inj_on_of_nodup_map h.uuids own own' rfl
  exact congrArg Prod.snd same

theorem set_flying {key : String} {envelope : CacheEnvelope V} {ttlSeconds : Int}
    (here : Airborne K lockTtlMs t s (.set key envelope ttlSeconds)) (h : Flying K lockTtlMs L s) :
    Flying K lockTtlMs L (s.set t key envelope ttlSeconds) := by
  obtain ⟨lasts, fresh, own⟩ := here
  rcases eq_or_ne key K with rfl | ne
  · obtain ⟨⟨since, held⟩, underway⟩ := own rfl
    have history : (s.set t key envelope ttlSeconds).history key =
        s.history key ++ [.written envelope.freshUntil] := by simp [CacheStore.set]
    have nobody : ∀ t' a, ¬ Holds key t' a (s.set t key envelope ttlSeconds) := by
      intro t' a held'
      rcases eq_or_ne t' t with rfl | other
      · simp [Holds, CacheStore.set, show s.holds t' = _ from held] at held'
      · have before : Holds key t' a s := by
          simpa [Holds, CacheStore.set, show s.holds t = _ from held,
            Function.update_of_ne other] using held'
        exact other (h.single t' t a since before held)
    constructor
    · rw [history]
      exact .written h.once underway
    · exact h.uuids
    · exact fun t' _ a _ held' => absurd held' (nobody t' a)
    · exact fun t' a held' => absurd held' (nobody t' a)
    · exact fun t' a held' => absurd held' (nobody t' a)
    · exact fun t' a held' => absurd held' (nobody t' a)
    · intro _
      rw [history]
      exact not_underway_written _ _
    · intro freshUntil last
      rw [history, List.getLast?_concat] at last
      cases last
      exact ⟨_, Function.update_self .., rfl, fresh⟩
    · exact fun t' a _ held' => absurd held' (nobody t' a)
  · have others : ∀ t' a, Holds K t' a (s.set t key envelope ttlSeconds) ↔ Holds K t' a s :=
      fun t' a => holds_set ne t' a envelope ttlSeconds
    have history : (s.set t key envelope ttlSeconds).history K = s.history K :=
      Function.update_of_ne ne.symm ..
    have entries : (s.set t key envelope ttlSeconds).entries K = s.entries K :=
      Function.update_of_ne ne.symm ..
    constructor
    · rw [history]
      exact h.once
    · exact h.uuids
    · exact fun t' t'' a b ha hb => h.single t' t'' a b ((others ..).mp ha) ((others ..).mp hb)
    · exact fun t' a held => h.begun t' a ((others ..).mp held)
    · exact fun t' a held => h.inTime t' a ((others ..).mp held)
    · exact fun t' a held => h.held t' a ((others ..).mp held)
    · intro nobody
      rw [history]
      exact h.landed fun t' a held => nobody t' a ((others ..).mpr held)
    · intro freshUntil
      rw [history, entries]
      exact h.window freshUntil
    · intro t' a freshUntil held
      rw [history]
      exact h.ended t' a freshUntil ((others ..).mp held)

theorem take_flying {key token : String} {ttlMs : Int} (short : L < lockTtlMs) (nonneg : 0 ≤ L)
    (here : Airborne K lockTtlMs t s (.setNx key token ttlMs)) (free : s.lock key = none)
    (careful : Careful K lag s (.setNx key token ttlMs)) (h : Flying K lockTtlMs L s) :
    Flying K lockTtlMs L (s.take t key token ttlMs) := by
  obtain ⟨rfl, own, idle⟩ := here
  rcases eq_or_ne key (lockKey K) with rfl | ne
  · have nobody := h.nobody short free
    have only : ∀ t' a, Holds K t' a (s.take t (lockKey K) token ttlMs) → t' = t ∧ a = s.clock := by
      intro t' a held
      rcases eq_or_ne t' t with rfl | other
      · simp [Holds, CacheStore.take] at held
        exact ⟨rfl, held.symm⟩
      · have before : Holds K t' a s := by
          simpa [Holds, CacheStore.take, Function.update_of_ne other] using held
        exact absurd before (nobody t' a)
    constructor
    · exact h.once
    · exact h.uuids
    · exact fun t' t'' a b ha hb => (only t' a ha).1.trans (only t'' b hb).1.symm
    · intro t' a held
      obtain ⟨rfl, rfl⟩ := only t' a held
      exact le_rfl
    · intro t' a held
      obtain ⟨rfl, rfl⟩ := only t' a held
      exact le_add_of_nonneg_right nonneg
    · intro t' a held
      obtain ⟨rfl, rfl⟩ := only t' a held
      exact ⟨_, Function.update_self .., rfl, own⟩
    · exact fun _ => h.landed nobody
    · exact h.window
    · exact fun _ _ _ _ last => h.behind ((careful rfl).1 free) last
  · have others : ∀ t' a, Holds K t' a (s.take t key token ttlMs) ↔ Holds K t' a s := by
      intro t' a
      rcases eq_or_ne t' t with rfl | other
      · simp [Holds, CacheStore.take, idle, ne]
      · simp [Holds, CacheStore.take, Function.update_of_ne other]
    constructor
    · exact h.once
    · exact h.uuids
    · exact fun t' t'' a b ha hb => h.single t' t'' a b ((others ..).mp ha) ((others ..).mp hb)
    · exact fun t' a held => h.begun t' a ((others ..).mp held)
    · exact fun t' a held => h.inTime t' a ((others ..).mp held)
    · intro t' a held
      obtain ⟨l, locked, rest⟩ := h.held t' a ((others ..).mp held)
      exact ⟨l, (Function.update_of_ne ne.symm ..).trans locked, rest⟩
    · exact fun nobody => h.landed fun t' a held => nobody t' a ((others ..).mpr held)
    · exact h.window
    · exact fun t' a u held => h.ended t' a u ((others ..).mp held)

theorem release_flying {key token : String}
    (here : Airborne K lockTtlMs t s (.releaseLock key token)) (h : Flying K lockTtlMs L s) :
    Flying K lockTtlMs L (s.release key token) := by
  obtain ⟨own, idle⟩ := here
  unfold CacheStore.release
  split
  · rename_i mine
    constructor
    · exact h.once
    · exact h.uuids
    · exact h.single
    · exact h.begun
    · exact h.inTime
    · intro t' a held
      obtain ⟨l, locked, expires, owner⟩ := h.held t' a held
      refine ⟨l, ?_, expires, owner⟩
      rcases eq_or_ne key (lockKey K) with rfl | ne
      · -- the lock would be that of `t`, who holds none
        obtain ⟨l', live, same⟩ := Option.map_eq_some_iff.mp mine
        have stored : s.locks (lockKey K) = some l' := (Option.filter_eq_some_iff.mp live).1
        rw [locked] at stored
        cases stored
        have thief := h.owner owner (same ▸ own)
        rw [thief] at held
        exact absurd (held.symm.trans idle) nofun
      · exact (Function.update_of_ne ne.symm ..).trans locked
    · exact h.landed
    · exact h.window
    · exact h.ended
  · exact h

theorem load_flying {key : String} (here : Airborne K lockTtlMs t s (.load key))
    (h : Flying K lockTtlMs L s) : Flying K lockTtlMs L (s.load key) := by
  rcases eq_or_ne key K with rfl | ne
  · obtain ⟨⟨since, held⟩, first⟩ := here rfl
    have history : (s.load key).history key = s.history key ++ [.loaded s.clock] := by
      simp [CacheStore.load]
    constructor
    · rw [history]
      refine .loaded h.once fun f last => ?_
      cases f with
      | loaded clock => exact absurd ⟨clock, last⟩ first
      | written freshUntil => exact ⟨freshUntil, h.ended t since freshUntil held last, rfl⟩
    · exact h.uuids
    · exact h.single
    · exact h.begun
    · exact h.inTime
    · exact h.held
    · exact fun nobody => absurd held (nobody t since)
    · intro freshUntil last
      rw [history, List.getLast?_concat] at last
      cases last
    · intro t' a freshUntil _ last
      rw [history, List.getLast?_concat] at last
      cases last
  · have history : (s.load key).history K = s.history K := Function.update_of_ne ne.symm ..
    constructor
    · rw [history]
      exact h.once
    · exact h.uuids
    · exact h.single
    · exact h.begun
    · exact h.inTime
    · exact h.held
    · rw [history]
      exact h.landed
    · rw [history]
      exact h.window
    · rw [history]
      exact h.ended

theorem moves_flying {e : Effect V} (short : L < lockTtlMs) (nonneg : 0 ≤ L)
    (here : Airborne K lockTtlMs t s e) (careful : Careful K lag s e) (moves : Moves t s e s')
    (h : Flying K lockTtlMs L s) : Flying K lockTtlMs L s' := by
  have same : ∀ s'' : CacheStore V, s''.clock = s.clock → s''.entries = s.entries →
      s''.locks = s.locks → s''.uuids = s.uuids → s''.holds = s.holds → s''.history = s.history →
      Flying K lockTtlMs L s'' := by
    rintro ⟨⟩ rfl rfl rfl rfl rfl rfl
    exact ⟨h.once, h.uuids, h.single, h.begun, h.inTime, h.held, h.landed, h.window, h.ended⟩
  cases moves with
  | same => exact h
  | written lasts => exact set_flying here h
  | taken free => exact take_flying short nonneg here free careful h
  | lost => exact same _ rfl rfl rfl rfl rfl rfl
  | slept => exact same _ rfl rfl rfl rfl rfl rfl
  | released => exact release_flying here h
  | named new =>
    exact ⟨h.once, List.nodup_cons.mpr ⟨new, h.uuids⟩, h.single, h.begun, h.inTime,
      fun t' a held => (h.held t' a held).imp fun l ⟨locked, expires, owner⟩ =>
        ⟨locked, expires, List.mem_cons_of_mem _ owner⟩, h.landed, h.window, h.ended⟩
  | loaded => exact load_flying here h
  | answered => exact same _ rfl rfl rfl rfl rfl rfl

/- Whoever is to write an entry goes on to do so, and what is written can be read for a second at
least. -/
theorem moves_coming {e : Effect V} {a b : Int} (here : Airborne K lockTtlMs t s e)
    (moves : Moves t s e s') (near : b ≤ s.clock + 1000) (h : Coming K a b s) :
    Coming K a b s' := by
  cases moves with
  | @written key envelope ttlSeconds lasts =>
    rcases eq_or_ne key K with rfl | ne
    · refine .inr ⟨_, Function.update_self .., ?_⟩
      change b ≤ s.clock + ttlSeconds * 1000
      omega
    · rcases h with ⟨t', since, held, early⟩ | ⟨e, stored, lasts⟩
      · exact .inl ⟨t', since, (holds_set ne t' since envelope ttlSeconds).mpr held, early⟩
      · exact .inr ⟨e, (Function.update_of_ne ne.symm ..).trans stored, lasts⟩
  | taken free =>
    rcases h with ⟨t', since, held, early⟩ | stored
    · have other : t' ≠ t := by
        rintro rfl
        exact absurd (held.symm.trans here.2.2) nofun
      exact .inl ⟨t', since, (Function.update_of_ne other ..).trans held, early⟩
    · exact .inr stored
  | released =>
    unfold CacheStore.release
    split <;> exact h
  | _ => exact h

def Effect.Quiet : Effect V → Prop
  | .setNx .. => False
  | .load _ => False
  | .set .. => False
  | .releaseLock .. => False
  | .setTimeout _ => False
  | _ => True

theorem ask_quiet (e : Effect V) (h : e.Quiet) : (ask e).Only Effect.Quiet := (only_await e).mpr h

theorem read_quiet (key : String) : (read key : Cached V _).Only Effect.Quiet :=
  only_handle (ask_quiet _ trivial) fun _ => trivial

/-- Every step is apart from the other calls. -/
theorem moves_apart {e : Effect V} {t' : Tid} (other : t' ≠ t)
    (here : Airborne K lockTtlMs t s e) (moves : Moves t s e s') (h : Flying K lockTtlMs L s) :
    Apart K t' s s' := by
  have coming : ∀ a b, b ≤ s.clock + 1000 → Coming K a b s → Coming K a b s' :=
    fun _ _ near => moves_coming here moves near
  cases moves with
  | same => exact .refl K t' s
  | @written key envelope ttlSeconds lasts =>
    refine ⟨?_, rfl, coming, ?_, fun _ hp => hp, le_rfl⟩
    · unfold CacheStore.set
      simp only
      split
      · exact Function.update_of_ne other ..
      · rfl
    · intro since held
      rcases eq_or_ne key K with rfl | ne
      · obtain ⟨⟨a, own⟩, _⟩ := here.2.2 rfl
        exact absurd (h.single t' t since a held own) other
      · exact Function.update_of_ne ne.symm ..
  | taken free =>
    exact ⟨Function.update_of_ne other .., rfl, coming, fun _ _ => rfl, fun _ hp => hp, le_rfl⟩
  | lost =>
    exact ⟨rfl, Function.update_of_ne other .., coming, fun _ _ => rfl, fun _ hp => hp, le_rfl⟩
  | slept =>
    exact ⟨rfl, Function.update_of_ne other .., coming, fun _ _ => rfl, fun _ hp => hp, le_rfl⟩
  | released =>
    unfold CacheStore.release
    split
    · exact ⟨rfl, rfl, fun _ _ _ h => h, fun _ _ => rfl, fun _ hp => hp, le_rfl⟩
    · exact .refl K t' s
  | named new =>
    exact ⟨rfl, rfl, coming, fun _ _ => rfl, fun _ hp => List.mem_cons_of_mem _ hp, le_rfl⟩
  | @loaded key =>
    refine ⟨rfl, rfl, coming, fun since held => ?_, fun _ hp => hp, le_rfl⟩
    rcases eq_or_ne key K with rfl | ne
    · obtain ⟨⟨a, own⟩, -⟩ := here rfl
      exact absurd (h.single t' t since a held own) other
    · exact Function.update_of_ne ne.symm ..
  | answered => exact ⟨rfl, rfl, coming, fun _ _ => rfl, fun _ hp => hp, le_rfl⟩

variable {config : CacheConfig} {rounds : Nat}

def singleFlying (V : Type) (K : String) (L lag : Int) (config : CacheConfig) (rounds : Nat) :
    Logic (cache V config rounds) where
  Inv := Flying K config.lockTtlMs L
  Frame := Apart K
  Fresh t s := s.holds t = none
  Here t e s := Airborne K config.lockTtlMs t s e
  Ok t s e c := c.healthy ∧ Careful K lag s e ∧ Punctual K lag t s
  refl := .refl K
  trans _ _ _ _ h h' := h.trans h'
  fresh _ _ _ idle apart := apart.holds.trans idle

section

variable (short : L < config.lockTtlMs) (nonneg : 0 ≤ L)

include short nonneg

theorem ask_flying {e : Effect V} {Q : Except Err e.Answer → CacheStore V → Prop}
    (here : ∀ s₁, Apart K t s s₁ → Flying K config.lockTtlMs L s₁ →
      Airborne K config.lockTtlMs t s₁ e)
    (next : ∀ s₁ c s₂ r, Apart K t s s₁ → Flying K config.lockTtlMs L s₁ → c.healthy = true →
      Careful K lag s₁ e → Punctual K lag t s₁ → exec t s₁ e c = some (s₂, r) → Q r s₂) :
    (singleFlying V K L lag config rounds).Safe t (ask e) Q s := by
  apply Logic.Safe.await
  intro s₁ apart flying
  constructor
  · exact here s₁ apart flying
  · intro c s₂ r ⟨healthy, careful, punctual⟩ he
    have asserted := here s₁ apart flying
    have moves := exec_moves he
    exact ⟨⟨moves_flying short nonneg asserted careful moves flying,
      fun _ other => moves_apart other asserted moves flying⟩,
      next s₁ c s₂ r apart flying healthy careful punctual he⟩

omit short nonneg in
theorem quiet_apart {e : Effect V} (quiet : e.Quiet) (moves : Moves t s e s') : Apart K t s s' := by
  cases moves with
  | same => exact .refl K t s
  | named new =>
    exact ⟨rfl, rfl, fun _ _ _ h => h, fun _ _ => rfl, fun _ hp => List.mem_cons_of_mem _ hp, le_rfl⟩
  | answered => exact ⟨rfl, rfl, fun _ _ _ h => h, fun _ _ => rfl, fun _ hp => hp, le_rfl⟩
  | written lasts => exact quiet.elim
  | taken free => exact quiet.elim
  | lost taken => exact quiet.elim
  | slept => exact quiet.elim
  | released => exact quiet.elim
  | loaded => exact quiet.elim

theorem quiet_flying {α : Type} {p : Cached V α} {J : CacheStore V → Prop}
    (only : p.Only Effect.Quiet) (stable : ∀ s s', J s → Apart K t s s' → J s') (h : J s) :
    (singleFlying V K L lag config rounds).Safe t p (fun _ => J) s := by
  refine Logic.Safe.of_only only (fun s s' h apart _ => stable s s' h apart) ?_ h
  intro e quiet s flying hj
  have here : Airborne K config.lockTtlMs t s e := by
    cases e <;> first | exact quiet.elim | trivial
  constructor
  · exact here
  · intro c s' r ⟨_, careful, _⟩ he
    have moves := exec_moves he
    exact ⟨⟨moves_flying short nonneg here careful moves flying,
      fun _ other => moves_apart other here moves flying⟩,
      stable s s' hj (quiet_apart quiet moves)⟩

omit short nonneg

def Idle (t : Tid) (s : CacheStore V) : Prop := s.holds t = none

theorem Idle.apart (h : Idle t s) (apart : Apart K t s s') : Idle t s' := apart.holds.trans h

/- It has taken the lock of `key`, and `P` holds of the loads of `K` if that is the key. -/
structure Aboard (K : String) (P : List Flight → Prop) (key token : String) (t : Tid)
    (s : CacheStore V) : Prop where
  token : (token, t) ∈ s.uuids
  holds : ∃ since, s.holds t = some (lockKey key, since)
  flight : key = K → P (s.history K)

theorem Aboard.apart {P : List Flight → Prop} {key token : String} (h : Aboard K P key token t s)
    (apart : Apart K t s s') : Aboard K P key token t s' := by
  obtain ⟨since, held⟩ := h.holds
  refine ⟨apart.uuids _ h.token, ⟨since, apart.holds.trans held⟩, ?_⟩
  rintro rfl
  rw [apart.history since held]
  exact h.flight rfl

/-- Task `t` has found the lock of `K` taken at `since`, and the entry is still to come; its round of
waiting has begun at `round`, and it can be read for `long` after that. -/
structure Queued (K : String) (L since round long : Int) (t : Tid) (s : CacheStore V) : Prop where
  waits : s.waits t = some (lockKey K, round)
  begun : round ≤ s.clock
  early : round ≤ since + L
  coming : Coming K since (round + long) s

theorem Queued.apart {since round long : Int} (brief : long ≤ 1000)
    (h : Queued K L since round long t s) (apart : Apart K t s s') :
    Queued K L since round long t s' := by
  have near : round + long ≤ s.clock + 1000 := by
    have begun := h.begun
    omega
  constructor
  · exact apart.waits.trans h.waits
  · exact h.begun.trans apart.clock
  · exact h.early
  · exact apart.coming _ _ near h.coming

def Waits (K : String) (L long : Int) (config : CacheConfig) (key : String) (deadline : Int) (t : Tid)
    (s : CacheStore V) : Prop :=
  Idle t s ∧ (key = K → ∃ since round, Queued K L since round long t s ∧
    since + min config.lockTtlMs 2000 ≤ deadline)

theorem Waits.apart {long deadline : Int} {key : String} (brief : long ≤ 1000)
    (h : Waits K L long config key deadline t s) (apart : Apart K t s s') :
    Waits K L long config key deadline t s' := by
  refine ⟨h.1.apart apart, fun own => ?_⟩
  obtain ⟨since, round, queued, last⟩ := h.2 own
  exact ⟨since, round, queued.apart brief apart, last⟩

include short nonneg

theorem acquireLock_flying (key : String) (h : Idle t s) :
    (singleFlying V K L lag config rounds).Safe t (acquireLock (lockKey key) config.lockTtlMs)
      (fun r s' => match r with
        | .ok (some token) => Aboard K (¬ Underway ·) key token t s'
        | .ok none => Idle t s' ∧
          (key = K → Queued K L s'.clock s'.clock (2 * (20 + lag)) t s')
        | .error _ => Idle t s') s := by
  apply Logic.Safe.bind
  apply ask_flying short nonneg
  · exact fun _ _ _ => trivial
  · intro s₁ c s₂ r apart _ _ _ _ he
    obtain ⟨u, _, rfl, rfl⟩ := randomUUID_ok he
    have idle : Idle t s₁ := h.apart apart
    apply Logic.Safe.bind
    apply ask_flying short nonneg
    · intro s₃ apart' _
      exact ⟨rfl, apart'.uuids _ List.mem_cons_self, apart'.holds.trans idle⟩
    · intro s₃ c s₄ r apart' flying healthy careful _ he
      have held : Idle t s₃ := apart'.holds.trans idle
      by_cases lasts : 0 < config.lockTtlMs
      · rcases setNx_ok lasts healthy he with ⟨free, rfl, rfl⟩ | ⟨taken, rfl, rfl⟩
        · refine ⟨apart'.uuids _ List.mem_cons_self, ⟨_, Function.update_self ..⟩, ?_⟩
          rintro rfl
          exact flying.landed (flying.nobody short free)
        · refine ⟨held, ?_⟩
          rintro rfl
          refine ⟨Function.update_self .., le_rfl, le_add_of_nonneg_right nonneg, ?_⟩
          rcases (careful rfl).2 taken with ⟨t', since, flies⟩ | stored
          · exact .inl ⟨t', since, flies, flying.begun t' since flies⟩
          · exact .inr stored
      · omega

theorem ttlWithJitter_flying {J : CacheStore V → Prop} (base jitter : Int)
    (stable : ∀ s s', J s → Apart K t s s' → J s') (h : J s) :
    (singleFlying V K L lag config rounds).Safe t (ttlWithJitter base jitter)
      (fun r s' => J s' ∧ ∃ seconds : Int, 1 ≤ seconds ∧ r = .ok seconds) s := by
  unfold ttlWithJitter
  split
  · exact ⟨h, _, le_max_left .., rfl⟩
  · apply Logic.Safe.bind
    apply ask_flying short nonneg
    · exact fun _ _ _ => trivial
    · intro s₁ c s₂ r apart _ _ _ _ he
      obtain ⟨rfl, q, _, rfl⟩ := random_ok he
      exact ⟨stable s _ h apart, _, le_max_left .., rfl⟩

variable {options : CacheOptions} {key token : String}

theorem write_flying (stale : 0 ≤ config.staleSeconds) (value : V)
    (h : Aboard K Underway key token t s) :
    (singleFlying V K L lag config rounds).Safe t (write config options key value)
      (fun r s' => r = .ok () ∧ Idle t s' ∧ (token, t) ∈ s'.uuids) s := by
  apply Logic.Safe.bind
  refine (ttlWithJitter_flying short nonneg _ _ (fun s s' => Aboard.apart) h).mono ?_
  rintro r s₁ ⟨aboard, freshSeconds, fresh, rfl⟩
  apply Logic.Safe.bind
  apply ask_flying short nonneg
  · exact fun _ _ _ => trivial
  · intro s₂ c s₃ r apart _ _ _ _ he
    obtain ⟨rfl, rfl⟩ := dateNow_ok he
    have aboard' := aboard.apart apart
    have lasts : 0 < freshSeconds + config.staleSeconds := by omega
    apply Logic.Safe.handle
    apply ask_flying short nonneg
    · intro s₄ apart' _
      have later := apart'.clock
      have aboard'' := aboard'.apart apart'
      refine ⟨lasts, ?_, ?_⟩
      · show s₃.clock + freshSeconds * 1000 ≤ s₄.clock + (freshSeconds + config.staleSeconds) * 1000
        omega
      · rintro rfl
        exact ⟨aboard''.holds, aboard''.flight rfl⟩
    · intro s₄ c s₅ r apart' _ healthy _ _ he
      obtain ⟨rfl, rfl⟩ := set_ok lasts healthy he
      have aboard'' := aboard'.apart apart'
      obtain ⟨since, held⟩ := aboard''.holds
      exact ⟨rfl, by simp [Idle, CacheStore.set, held], aboard''.token⟩

theorem loadAndWrite_flying (stale : 0 ≤ config.staleSeconds)
    (h : Aboard K (¬ Underway ·) key token t s) :
    (singleFlying V K L lag config rounds).Safe t (loadAndWrite config options key)
      (fun r s' => (∃ v, r = .ok v) ∧ Idle t s' ∧ (token, t) ∈ s'.uuids) s := by
  apply Logic.Safe.bind
  apply ask_flying short nonneg
  · rintro s₁ apart _ rfl
    have aboard := h.apart apart
    exact ⟨aboard.holds, aboard.flight rfl⟩
  · intro s₁ c s₂ r apart _ healthy _ _ he
    obtain ⟨rfl, rfl⟩ := load_ok healthy he
    have aboard := h.apart apart
    have loaded : Aboard K Underway key token t (s₁.load key) := by
      refine ⟨aboard.token, aboard.holds, ?_⟩
      rintro rfl
      simp only [CacheStore.load, Function.update_self]
      exact underway_loaded ..
    apply Logic.Safe.bind
    refine (write_flying short nonneg stale _ loaded).mono ?_
    rintro r s₃ ⟨rfl, idle, own⟩
    exact ⟨⟨_, rfl⟩, idle, own⟩

theorem releaseLock_flying (h : Idle t s) (own : (token, t) ∈ s.uuids) :
    (singleFlying V K L lag config rounds).Safe t (releaseLock key token) (fun _ => Idle t) s := by
  have idle : ∀ {s₁ s₂ : CacheStore V}, Apart K t s s₁ →
      Moves t s₁ (.releaseLock key token) s₂ → Idle t s₂ := by
    intro s₁ s₂ apart moves
    have before : Idle t s₁ := h.apart apart
    cases moves with
    | same => exact before
    | released =>
      unfold CacheStore.release
      split <;> exact before
  apply Logic.Safe.handle
  apply ask_flying short nonneg
  · exact fun s₁ apart _ => ⟨apart.uuids _ own, h.apart apart⟩
  · intro s₁ c s₂ r apart _ _ _ _ he
    cases r with
    | ok _ => exact idle apart (exec_moves he)
    | error _ => exact idle apart (exec_moves he)

/- The timer of a round: the next round begins, and the entry is still to come. -/
theorem setTimeout_flying {deadline ms : Int} (brief : lag ≤ 480)
    (h : Waits K L (2 * (20 + lag)) config key deadline t s) :
    (singleFlying V K L lag config rounds).Safe t (ask (.setTimeout ms))
      (fun r s' => match r with
        | .ok _ => Idle t s' ∧ (key = K → ∃ since, s'.waits t = some (lockKey K, s'.clock) ∧
            Coming K since (s'.clock + (20 + lag)) s' ∧
              since + min config.lockTtlMs 2000 ≤ deadline)
        | .error _ => Idle t s') s := by
  apply ask_flying short nonneg
  · exact fun _ _ _ => trivial
  · intro s₁ c s₂ r apart _ _ _ punctual he
    have waiting := h.apart (by omega) apart
    cases c with
    | ok =>
      obtain ⟨rfl, rfl⟩ : s₁.timer t = s₂ ∧ .ok (s₁.clock + ms) = r := by
        simpa [exec] using he
      refine ⟨waiting.1, fun own => ?_⟩
      obtain ⟨since, round, queued, last⟩ := waiting.2 own
      have late := punctual round queued.waits
      have again : (s₁.timer t).waits t = some (lockKey K, s₁.clock) := by
        simp [CacheStore.timer, queued.waits]
      refine ⟨since, again, ?_, last⟩
      rcases queued.coming with flies | ⟨e, stored, lasts⟩
      · exact .inl flies
      · refine .inr ⟨e, stored, ?_⟩
        change s₁.clock + (20 + lag) ≤ e.expiresAt
        omega
    | _ => cases he

/- The poll of a round finds the entry, or it is still to come in the rounds after. -/
theorem read_flying {deadline round : Int} (brief : lag ≤ 480) (h : Idle t s)
    (own : key = K → ∃ since, s.waits t = some (lockKey K, round) ∧ round ≤ s.clock ∧
      Coming K since (round + (20 + lag)) s ∧ since + min config.lockTtlMs 2000 ≤ deadline) :
    (singleFlying V K L lag config rounds).Safe t (read key)
      (fun r s' => match r with
        | .ok none => Waits K L (2 * (20 + lag)) config key deadline t s'
        | _ => Idle t s') s := by
  apply Logic.Safe.handle
  apply ask_flying short nonneg
  · exact fun _ _ _ => trivial
  · intro s₁ c s₂ r apart flying healthy _ punctual he
    obtain ⟨rfl, rfl⟩ := get_ok healthy he
    have idle := h.apart apart
    cases found : s₂.entry key with
    | some e => exact idle
    | none =>
      refine ⟨idle, ?_⟩
      rintro rfl
      obtain ⟨since, waits, begun, coming, last⟩ := own rfl
      have waits' : s₂.waits t = some (lockKey key, round) := apart.waits.trans waits
      have late := punctual round waits'
      have later := apart.clock
      rcases apart.coming _ _ (by omega) coming with ⟨t', a, flies, early⟩ | ⟨e, stored, lasts⟩
      · have inTime := flying.inTime t' a flies
        exact ⟨since, round, ⟨waits', by omega, by omega, .inl ⟨t', a, flies, early⟩⟩, last⟩
      · have live : s₂.entry key = some e := by
          refine Option.filter_eq_some_iff.mpr ⟨stored, decide_eq_true ?_⟩
          omega
        rw [found] at live
        cases live

/-- No wait runs out: the entry is there before the deadline has come. -/
theorem waitForWinner_flying (enough : L + 20 + lag < min config.lockTtlMs 2000) (brief : lag ≤ 480)
    (deadline : Int) (n : Nat) (h : Waits K L (2 * (20 + lag)) config key deadline t s) :
    (singleFlying V K L lag config rounds).Safe t (waitForWinner key deadline n) (fun _ => Idle t)
      s := by
  induction n generalizing s with
  | zero =>
    apply Logic.Safe.bind
    refine (quiet_flying short nonneg (ask_quiet .more trivial) (fun _ _ => Idle.apart) h.1).mono
      fun r s₁ idle => ?_
    cases r with
    | ok never => exact never.elim
    | error _ => exact idle
  | succ n ih =>
    apply Logic.Safe.bind
    apply ask_flying short nonneg
    · exact fun _ _ _ => trivial
    · intro s₁ c s₂ r apart _ _ _ punctual he
      obtain ⟨rfl, rfl⟩ := dateNow_ok he
      have waiting := h.apart (by omega) apart
      simp only
      split
      · apply Logic.Safe.bind
        apply Logic.Safe.bind
        refine (setTimeout_flying short nonneg brief waiting).mono fun r s₃ slept => ?_
        cases r with
        | error _ => exact slept
        | ok due =>
          obtain ⟨idle, own⟩ := slept
          apply Logic.Safe.mono (quiet_flying short nonneg (ask_quiet (.elapsed due) trivial)
            (J := fun s => Idle t s ∧ (key = K → ∃ since, s.waits t = some (lockKey K, s₃.clock) ∧
              s₃.clock ≤ s.clock ∧ Coming K since (s₃.clock + (20 + lag)) s ∧
                since + min config.lockTtlMs 2000 ≤ deadline)) ?_ ?_)
          · rintro r s₄ ⟨idle, own⟩
            cases r with
            | error _ => exact idle
            | ok _ =>
              apply Logic.Safe.bind
              refine (read_flying short nonneg brief idle own).mono fun r s₅ polled => ?_
              match r with
              | .error _ => exact polled
              | .ok (some entry) => exact polled
              | .ok none => exact ih polled
          · rintro s s' ⟨idle, own⟩ apart
            refine ⟨idle.apart apart, fun same => ?_⟩
            obtain ⟨since, waits, begun, coming, last⟩ := own same
            exact ⟨since, apart.waits.trans waits, begun.trans apart.clock,
              apart.coming _ _ (by omega) coming, last⟩
          · refine ⟨idle, fun same => ?_⟩
            obtain ⟨since, waits, coming, last⟩ := own same
            exact ⟨since, waits, le_rfl, coming, last⟩
      · rename_i late
        -- the deadline of a caller that waits for `K` cannot have come
        have other : key ≠ K := by
          rintro rfl
          obtain ⟨since, round, queued, last⟩ := waiting.2 rfl
          have passed : deadline ≤ s₂.clock := Int.not_lt.mp late
          have begun := punctual round queued.waits
          have early := queued.early
          omega
        apply ask_flying short nonneg
        · exact fun _ _ _ own => absurd own other
        · intro s₂ c s₃ r apart' _ healthy _ _ he
          obtain ⟨rfl, rfl⟩ := load_ok healthy he
          have before : Idle t s₂ := waiting.1.apart apart'
          exact before

theorem singleFlight_flying (enough : L + 20 + lag < min config.lockTtlMs 2000) (brief : lag ≤ 480)
    (stale : 0 ≤ config.staleSeconds) (n : Nat) (h : Idle t s) :
    (singleFlying V K L lag config rounds).Safe t (singleFlight config options key n) (fun _ => Idle t)
      s := by
  apply Logic.Safe.bind
  refine (acquireLock_flying short nonneg key h).mono fun r s₁ taken => ?_
  match r with
  | .error _ => exact taken
  | .ok (some token) =>
    apply Logic.Safe.ensure
    refine (loadAndWrite_flying short nonneg stale taken).mono ?_
    rintro r s₂ ⟨⟨v, rfl⟩, idle, own⟩
    refine (releaseLock_flying short nonneg idle own).mono fun r s₃ idle => ?_
    cases r <;> exact idle
  | .ok none =>
    obtain ⟨idle, own⟩ := taken
    apply Logic.Safe.bind
    apply ask_flying short nonneg
    · exact fun _ _ _ => trivial
    · intro s₂ c s₃ r apart _ _ _ _ he
      obtain ⟨rfl, rfl⟩ := dateNow_ok he
      apply waitForWinner_flying short nonneg enough brief
      refine ⟨idle.apart apart, fun same => ?_⟩
      have later := apart.clock
      exact ⟨_, _, (own same).apart (by omega) apart, by omega⟩

theorem refreshInBackground_flying (stale : 0 ≤ config.staleSeconds) (h : Idle t s) :
    (singleFlying V K L lag config rounds).Safe t (refreshInBackground config options key)
      (fun _ => Idle t) s := by
  apply Logic.Safe.handle
  apply Logic.Safe.bind
  refine (acquireLock_flying short nonneg key h).mono fun r s₁ taken => ?_
  match r with
  | .error _ => exact taken
  | .ok none => exact taken.1
  | .ok (some token) =>
    apply Logic.Safe.ensure
    apply Logic.Safe.bind
    refine (loadAndWrite_flying short nonneg stale taken).mono ?_
    rintro r s₂ ⟨⟨v, rfl⟩, idle, own⟩
    refine (releaseLock_flying short nonneg idle own).mono fun r s₃ idle => ?_
    cases r <;> exact idle

theorem getOrLoad_flying (enough : L + 20 + lag < min config.lockTtlMs 2000) (brief : lag ≤ 480)
    (enabled : config.enabled = true) (protection : config.stampedeProtection = true)
    (stale : 0 ≤ config.staleSeconds) (n : Nat) (h : Idle t s) :
    (singleFlying V K L lag config rounds).Safe t (getOrLoad config options key n) (fun _ => Idle t)
      s := by
  unfold getOrLoad
  simp only [enabled, not_true_eq_false, if_false, protection, if_true]
  apply Logic.Safe.bind
  apply (quiet_flying short nonneg (read_quiet key) (fun _ _ => Idle.apart) h).mono
  intro r s₁ idle
  cases r with
  | error _ => exact idle
  | ok entry =>
    apply Logic.Safe.bind
    apply (quiet_flying short nonneg (ask_quiet .dateNow trivial) (fun _ _ => Idle.apart) idle).mono
    intro r s₂ idle
    cases r with
    | error _ => exact idle
    | ok now =>
      cases entry with
      | some entry =>
        simp only
        split <;> exact idle
      | none =>
        apply Logic.Safe.bind
        refine (singleFlight_flying short nonneg enough brief stale n idle).mono fun r s₃ idle => ?_
        cases r <;> exact idle

theorem serve_flying (enough : L + 20 + lag < min config.lockTtlMs 2000) (brief : lag ≤ 480)
    (enabled : config.enabled = true) (protection : config.stampedeProtection = true)
    (stale : 0 ≤ config.staleSeconds) (n : Nat) (h : Idle t s) :
    (singleFlying V K L lag config rounds).Safe t (serve config options key n) (fun _ _ => True)
      s := by
  apply Logic.Safe.bind
  apply Logic.Safe.outcome
  refine (getOrLoad_flying short nonneg enough brief enabled protection stale n h).mono fun r s₁ idle => ?_
  apply Logic.Safe.bind
  apply (quiet_flying short nonneg (ask_quiet (.answer _) trivial) (fun _ _ => Idle.apart) idle).mono
  intro r' s₂ idle
  cases r' with
  | error _ => trivial
  | ok _ =>
    cases r with
    | error _ => trivial
    | ok served =>
      unfold runIf
      simp only
      split
      · exact (refreshInBackground_flying short nonneg stale idle).mono fun _ _ _ => trivial
      · trivial

end

/-- Redis and the database are reachable, nobody invalidates `K`, and every holder of its lock has
written its entry within `L` milliseconds. -/
def Timely (K : String) (L : Int) (p : Calls V) : Act Call Choice (Ext V) → Prop
  | .step _ c => c.healthy = true
  | .env (.tick d) => ∀ t since, Holds K t since p.shared → p.shared.clock + d ≤ since + L
  | .env (.del key _) => key ≠ K
  | _ => True

/-- Besides, every SET NX is careful, and every caller that waits takes its steps in time. -/
def Coordinated (K : String) (L lag : Int) (p : Calls V) (a : Act Call Choice (Ext V)) : Prop :=
  Timely K L p a ∧ ∀ t c j e k, a = .step t c → p.slot t = .live j e k →
    Careful K lag p.shared e ∧ Punctual K lag t p.shared

theorem singleFlying_verified (K : String) (nonneg : 0 ≤ L)
    (enough : L + 20 + lag < min config.lockTtlMs 2000) (short : L < config.lockTtlMs)
    (brief : lag ≤ 480) (enabled : config.enabled = true)
    (protection : config.stampedeProtection = true) (stale : 0 ≤ config.staleSeconds) :
    Logic.Verified (singleFlying V K L lag config rounds) (Coordinated K L lag)
      (fun _ _ _ _ => True) where
  allowed p t c j e k ok live := ⟨ok.1, ok.2 t c j e k rfl live⟩
  code p t call _ _ _ idle :=
    serve_flying short nonneg enough brief enabled protection stale rounds idle
  finish t j r s flying _ := ⟨flying, fun t' _ => .refl K t' _⟩
  ext p x s' ok flying st := by
    have h := flying
    cases x with
    | tick d =>
      simp only [cache, ext] at st
      split at st
      · cases st
        have later : p.shared.clock ≤ p.shared.clock + d := by omega
        refine ⟨⟨h.once, h.uuids, h.single, ?_, ok.1, h.held, h.landed, h.window, ?_⟩,
          fun t => ⟨rfl, rfl, fun _ _ _ h => h, fun _ _ => rfl, fun _ hp => hp, later⟩⟩
        · exact fun t since held => (h.begun t since held).trans later
        · exact fun t since u held last => (h.ended t since u held last).trans later
      · cases st
    | commit database =>
      cases st
      exact ⟨⟨h.once, h.uuids, h.single, h.begun, h.inTime, h.held, h.landed, h.window, h.ended⟩,
        fun t => ⟨rfl, rfl, fun _ _ _ h => h, fun _ _ => rfl, fun _ hp => hp, le_rfl⟩⟩
    | del key version =>
      cases st
      have stays : (p.shared.del key version).entries K = p.shared.entries K :=
        Function.update_of_ne (Ne.symm ok.1) ..
      refine ⟨⟨h.once, h.uuids, h.single, h.begun, h.inTime, h.held, h.landed, ?_, h.ended⟩,
        fun t => ⟨rfl, rfl, ?_, fun _ _ => rfl, fun _ hp => hp, le_rfl⟩⟩
      · intro u last
        rw [stays]
        exact h.window u last
      · rintro a b - (flies | stored)
        · exact .inl flies
        · refine .inr ?_
          rw [stays]
          exact stored

/- Every pool that such a run reaches is verified. -/
theorem flying_sound (nonneg : 0 ≤ L) (enough : L + 20 + lag < min config.lockTtlMs 2000)
    (brief : lag ≤ 480) (enabled : config.enabled = true)
    (protection : config.stampedeProtection = true) (stale : 0 ≤ config.staleSeconds) {clock : Int}
    {database : String → V} {p : Calls V}
    (run : (cache V config rounds).Reach (Coordinated K L lag) (emptyCache clock database) p)
    (late : 0 ≤ lag) : Logic.Sound (singleFlying V K L lag config rounds) (fun _ _ _ _ => True) p := by
  have within : L < config.lockTtlMs := by omega
  have start : Logic.Sound (singleFlying V K L lag config rounds) (fun _ _ _ _ => True)
      (emptyCache clock database) := by
    refine Logic.initial_sound ⟨.nil, List.nodup_nil, nofun, nofun, nofun, nofun, ?_, nofun, nofun⟩
      fun _ => rfl
    rintro _ ⟨_, last⟩
    cases last
  exact Logic.reach_sound
    (singleFlying_verified K nonneg enough within brief enabled protection stale) start run

/-- In every run whose steps are careful and in time the load function is run once for each entry:
between the end of one entry's window and the end of the next one's there is exactly one load. No
wait runs out: whoever is about to load holds the lock. -/
theorem one_load_per_refill (config : CacheConfig) (rounds : Nat) (K : String) (L lag : Int)
    (nonneg : 0 ≤ L) (late : 0 ≤ lag) (enough : L + 20 + lag < min config.lockTtlMs 2000)
    (brief : lag ≤ 480) (enabled : config.enabled = true)
    (protection : config.stampedeProtection = true) (stale : 0 ≤ config.staleSeconds) (clock : Int)
    (database : String → V) (p : Calls V)
    (run : (cache V config rounds).Reach (Coordinated K L lag) (emptyCache clock database) p) :
    OnceEach (p.shared.history K) ∧
      ∀ t j k, p.slot t = .live j (.load K) k → ∃ since, Holds K t since p.shared := by
  have sound := flying_sound nonneg enough brief enabled protection stale run late
  exact ⟨sound.inv.once, fun t j k live => (sound.here live rfl).1⟩

def coordinatedCheck (K : String) (lag : Int) (p : Calls V) : Act Call Choice (Ext V) → Bool
  | .step t c =>
    c.healthy &&
      (p.shared.waits t).all (fun wait => wait.1 != lockKey K || p.shared.clock ≤ wait.2 + 20 + lag) &&
      match p.slot t with
      | .live _ (.setNx key _ _) _ => key != lockKey K ||
        if (p.shared.lock key).isSome then
          [1, 2].any fun t' => (p.shared.holds t').map (·.1) == some (lockKey K)
        else (p.shared.entry K).all fun e => e.freshUntil ≤ p.shared.clock
      | _ => true
  | .env _ => false
  | _ => true

theorem coordinated_of_check {p : Calls V} {a : Act Call Choice (Ext V)}
    (h : coordinatedCheck K lag p a = true) : Coordinated K L lag p a := by
  cases a with
  | start t j => exact ⟨trivial, nofun⟩
  | kill t => exact ⟨trivial, nofun⟩
  | env x => cases h
  | step t c =>
    simp only [coordinatedCheck, Bool.and_eq_true] at h
    obtain ⟨⟨healthy, punctual⟩, checked⟩ := h
    refine ⟨healthy, ?_⟩
    rintro t' c' j e k ⟨⟩ live
    rw [live] at checked
    constructor
    · cases e with
      | setNx key token ttlMs =>
        rintro rfl
        simp only [bne_self_eq_false, Bool.false_or] at checked
        constructor
        · intro free e stored
          simp only [free, Option.isSome_none, Bool.false_eq_true, if_false] at checked
          rw [stored] at checked
          simpa using checked
        · intro taken
          rw [if_pos taken] at checked
          obtain ⟨t', -, same⟩ := List.any_eq_true.mp checked
          obtain ⟨⟨key, since⟩, held, rfl⟩ := Option.map_eq_some_iff.mp (beq_iff_eq.mp same)
          exact .inl ⟨t', since, held⟩
      | _ => trivial
    · intro since waits
      rw [waits] at punctual
      simpa using punctual

def readEvent : Call := { key := eventCacheKey "e" }

def untilMiss (t : Tid) : List (Act Call Choice (Ext Nat)) := [.start t readEvent, .step t .ok, .step t .ok]

/- Two callers miss; the second waits while the first loads and writes. -/
def twoMisses : List (Act Call Choice (Ext Nat)) :=
  untilMiss 1 ++ untilMiss 2 ++ [.step 1 (.uuid "u"), .step 1 .ok, .step 2 (.uuid "v"), .step 2 .ok,
    .step 2 .ok, .step 2 .ok, .step 2 .ok, .step 1 .ok, .step 1 .ok, .step 1 .ok, .step 1 .ok,
    .step 1 .ok]

/- The second caller wakes up, polls and answers. -/
def poll : List (Act Call Choice (Ext Nat)) := [.step 2 .ok, .step 2 .ok, .step 2 .ok]

theorem one_load_per_refill_two : ∃ p : Calls Nat,
    p.shared.history (eventCacheKey "e") = [.loaded 0, .written 30000] ∧
      p.shared.answers.map (·.1) = [1, 2] ∧
      OnceEach (p.shared.history (eventCacheKey "e")) ∧
      ∀ t j k, p.slot t = .live j (.load (eventCacheKey "e")) k →
        ∃ since, Holds (eventCacheKey "e") t since p.shared := by
  have replay : (((cache Nat noJitter 101).runChecked (coordinatedCheck (eventCacheKey "e") 0)
      (emptyCache 0 fun _ => 7) twoMisses).bind fun p =>
        ((cache Nat noJitter 101).step p (.env (.tick 20))).bind fun q =>
          ((cache Nat noJitter 101).runChecked (coordinatedCheck (eventCacheKey "e") 0) q poll).map
            fun r => (p.shared.holds 1, p.shared.holds 2, r.shared.history (eventCacheKey "e"),
              r.shared.answers.map (·.1))) =
        some (none, none, [.loaded 0, .written 30000], [1, 2]) := by decide +kernel
  obtain ⟨p, hp, rest⟩ := Option.bind_eq_some_iff.mp replay
  obtain ⟨q, hq, rest⟩ := Option.bind_eq_some_iff.mp rest
  obtain ⟨r, hr, seen⟩ := Option.map_eq_some_iff.mp rest
  simp only [Prod.mk.injEq] at seen
  obtain ⟨first, second, history, answers⟩ := seen
  have before : (cache Nat noJitter 101).Reach (Coordinated (eventCacheKey "e") 0 0)
      (emptyCache 0 fun _ => 7) p :=
    .of_checked hp fun a _ q => coordinated_of_check (p := q) (a := a)
  have nobody : ∀ t, p.shared.holds t = none := by
    intro t
    by_cases one : t = 1
    · rw [one, first]
    by_cases two : t = 2
    · rw [two, second]
    have sound := flying_sound le_rfl (by decide) (by decide) rfl rfl (by decide) before le_rfl
    apply sound.fresh t
    have others : ∀ a ∈ twoMisses, a.task ≠ some t := by
      intro a ha same
      have named : (twoMisses.all fun a => a.task.all [1, 2].contains) = true := by decide
      have mine := List.all_eq_true.mp named a ha
      rw [same] at mine
      simp [one, two] at mine
    rw [Machine.runChecked_slot hp others]
    rfl
  have woken : (cache Nat noJitter 101).Reach (Coordinated (eventCacheKey "e") 0 0)
      (emptyCache 0 fun _ => 7) q := by
    have quiet : Coordinated (eventCacheKey "e") 0 0 p (.env (.tick 20)) := by
      constructor
      · intro t since held
        cases (nobody t).symm.trans held
      · intro t c j e k same
        cases same
    exact before.step quiet hq
  have run : (cache Nat noJitter 101).Reach (Coordinated (eventCacheKey "e") 0 0)
      (emptyCache 0 fun _ => 7) r :=
    woken.trans (.of_checked hr fun a _ q => coordinated_of_check (p := q) (a := a))
  exact ⟨r, history, answers, one_load_per_refill noJitter 101 (eventCacheKey "e") 0 0 le_rfl le_rfl
    (by decide) (by decide) rfl rfl (by decide) 0 (fun _ => 7) r run⟩

/-! A caller that missed before the lock was taken takes it once it is free again. -/

theorem OnceEach.last {flights : List Flight} {clock : Int}
    (h : OnceEach (flights ++ [.loaded clock])) :
    ∀ f ∈ flights.getLast?, ∃ freshUntil ≤ clock, f = .written freshUntil := by
  generalize all : flights ++ [.loaded clock] = l at h
  cases h with
  | nil => simp at all
  | loaded before ended =>
    obtain ⟨rfl, same⟩ := List.append_inj' all rfl
    cases same
    exact ended
  | written before once =>
    obtain ⟨_, same⟩ := List.append_inj' all rfl
    cases same

def lateLock : List (Act Call Choice (Ext Nat)) :=
  untilMiss 1 ++ untilMiss 2 ++ [.step 1 (.uuid "u"), .step 1 .ok, .step 1 .ok, .step 1 .ok,
    .step 1 .ok, .step 1 .ok, .step 1 .ok, .step 2 (.uuid "v"), .step 2 .ok, .step 2 .ok]

def timelyCheck (_ : Calls V) : Act Call Choice (Ext V) → Bool
  | .step _ c => c.healthy
  | .env _ => false
  | _ => true

theorem timely_of_check {p : Calls V} {a : Act Call Choice (Ext V)} (h : timelyCheck p a = true) :
    Timely K L p a := by
  cases a with
  | start t j => trivial
  | kill t => trivial
  | env x => cases h
  | step t c => exact h

theorem late_lock_loads_twice : ∃ p : Calls Nat,
    (cache Nat noJitter 101).Reach (Timely (eventCacheKey "e") 0) (emptyCache 0 fun _ => 7) p ∧
      ¬ OnceEach (p.shared.history (eventCacheKey "e")) := by
  have replay : (((cache Nat noJitter 101).runChecked timelyCheck (emptyCache 0 fun _ => 7)
      lateLock).map fun p => p.shared.history (eventCacheKey "e")) =
        some ([.loaded 0, .written 30000] ++ [.loaded 0]) := by
    decide +kernel
  obtain ⟨p, hp, history⟩ := Option.map_eq_some_iff.mp replay
  refine ⟨p, .of_checked hp fun a _ q => timely_of_check (p := q) (a := a), fun once => ?_⟩
  rw [history] at once
  obtain ⟨u, early, same⟩ := once.last _ rfl
  cases same
  exact absurd early (by decide)

end Overbook.Redis
