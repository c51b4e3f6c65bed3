import Overbook.Async.Progress
import Overbook.Redis.Lease
import Mathlib.Data.List.Nodup

/-! The lease is safe: nobody removes the lock of another, two bodies that are both in time are one,
and a lease that has run out can be taken again. -/
namespace Overbook.Lease

open Async Prog

variable {W : Type} {B : W → Type} {ω C X T : Type} {G : World ω W B C X}

/-- All that an answer can do to the locks. -/
inductive Moves (t : Tid) (s : LockStore ω) : Effect W → LockStore ω → Prop where
  | same {e : Effect W} : Moves t s e s
  | named {u : Uuid} (new : u ∉ s.uuids.map (·.1)) :
      Moves t s .randomUUID { s with uuids := (u, t) :: s.uuids }
  | taken {key token : String} {ttlMs : Int} (free : s.lock key = none) :
      Moves t s (.setNx key token ttlMs) (s.take t key token ttlMs)
  | released {key token : String} : Moves t s (.releaseLock key token) (s.release key token)
  | worked {w : W} {world : ω} : Moves t s (.work w) { s with world }

variable {t : Tid} {s s' : LockStore ω} {c : Choice C}

theorem exec_moves {e : Effect W} {r : Except Err (e.Answer B)}
    (h : exec G t s e c = some (s', r)) : Moves t s e s' := by
  cases e <;> cases c <;> simp only [exec, reduceCtorEq] at h
  case work.work w c =>
    obtain ⟨a, _, eq⟩ := Option.map_eq_some_iff.mp h
    cases eq
    exact .worked
  all_goals repeat' split at h
  all_goals simp only [Option.some.injEq, Prod.mk.injEq, reduceCtorEq] at h
  all_goals obtain ⟨rfl, -⟩ := h
  case randomUUID.uuid.isFalse new => exact .named new
  case setNx.ok.isTrue.isFalse free => exact .taken (by simpa using free)
  case setNx.lostReply.isTrue free => exact .taken (by simpa using free.2)
  case releaseLock.ok => exact .released
  case releaseLock.lostReply => exact .released
  all_goals exact .same

theorem randomUUID_ok {token : Uuid} (h : exec G t s .randomUUID c = some (s', .ok token)) :
    s' = { s with uuids := (token, t) :: s.uuids } := by
  cases c <;> simp only [exec, reduceCtorEq] at h
  split at h
  · cases h
  · cases h
    rfl

theorem setNx_won {key token : String} {ttlMs : Int}
    (h : exec G t s (.setNx key token ttlMs) c = some (s', .ok true)) :
    s' = s.take t key token ttlMs := by
  cases c <;> simp only [exec, reduceCtorEq] at h
  all_goals repeat' split at h
  all_goals cases h
  rfl

theorem work_ok {w : W} {r : Except Err (B w)} (h : exec G t s (.work w) c = some (s', r)) :
    ∃ c' world, G.perform t s.clock s.world w c' = some (world, r) ∧ s' = { s with world } := by
  cases c <;> simp only [exec, reduceCtorEq] at h
  rename_i c'
  obtain ⟨⟨world, r'⟩, done, eq⟩ := Option.map_eq_some_iff.mp h
  cases eq
  exact ⟨c', world, done, rfl⟩

/-! What holds of the locks in every state. -/

/-- Tokens are distinct, and a lock is the one that the last SET of its key stored. -/
structure Leased (s : LockStore ω) : Prop where
  uuids : (s.uuids.map (·.1)).Nodup
  taken : ∀ x ∈ s.taken, (x.token, x.task) ∈ s.uuids
  granted : ∀ t token, (t, token) ∈ s.granted → (token, t) ∈ s.uuids
  stored : ∀ key l, s.locks key = some l → ∃ x, s.last key = some x ∧ l = x.lock

def Standing (x : Taken) (s : LockStore ω) : Prop :=
  s.clock ≤ x.clock + x.ttlMs → s.locks x.key = some x.lock

/-- What a call knows of the steps of others: they leave its lock alone, unless the token has been
granted for somebody to release it. -/
structure Apart (t : Tid) (s s' : LockStore ω) : Prop where
  uuids : ∀ p ∈ s.uuids, p ∈ s'.uuids
  taken : ∀ x ∈ s.taken, x ∈ s'.taken
  granted : ∀ p ∈ s.granted, p ∈ s'.granted
  own : ∀ token, (t, token) ∈ s'.granted → (t, token) ∈ s.granted
  standing : ∀ x ∈ s.taken, x.task = t → (t, x.token) ∉ s.granted → Standing x s → Standing x s'

theorem Apart.refl (t : Tid) (s : LockStore ω) : Apart t s s :=
  ⟨fun _ h => h, fun _ h => h, fun _ h => h, fun _ h => h, fun _ _ _ _ h => h⟩

theorem Apart.trans {s'' : LockStore ω} (h : Apart t s s') (h' : Apart t s' s'') :
    Apart t s s'' where
  uuids p hp := h'.uuids p (h.uuids p hp)
  taken x hx := h'.taken x (h.taken x hx)
  granted p hp := h'.granted p (h.granted p hp)
  own token ht := h.own token (h'.own token ht)
  standing x hx task kept stands := by
    have kept' : (t, x.token) ∉ s'.granted := fun mem => kept (h.own _ mem)
    exact h'.standing x (h.taken x hx) task kept' (h.standing x hx task kept stands)

theorem Leased.owner (h : Leased s) {u : Uuid} {t t' : Tid} (own : (u, t) ∈ s.uuids)
    (own' : (u, t') ∈ s.uuids) : t = t' :=
  congrArg Prod.snd (List.inj_on_of_nodup_map h.uuids own own' rfl)

theorem lock_some {key : String} {l : Redis.Lock} :
    s.lock key = some l ↔ s.locks key = some l ∧ s.clock ≤ l.expiresAt := by
  simp [LockStore.lock, Option.filter_eq_some_iff]

theorem release_cases (s : LockStore ω) (key token : String) :
    s.release key token = s ∨ ∃ l, s.lock key = some l ∧ l.token = token ∧
      s.release key token = { s with locks := Function.update s.locks key none } := by
  unfold LockStore.release
  split
  · rename_i own
    obtain ⟨l, held, same⟩ := Option.map_eq_some_iff.mp own
    exact .inr ⟨l, held, same, rfl⟩
  · exact .inl rfl

def Owns (jobs : Tid → Option (Job W B T)) (t : Tid) (s : LockStore ω) : Effect W → Prop
  | .setNx _ token _ => (token, t) ∈ s.uuids
  | .releaseLock _ token => ∃ j, jobs t = some j ∧ (token, j.taker t) ∈ s.uuids ∧
      (j.taker t = t ∨ (j.taker t, token) ∈ s.granted)
  | .work _ => ∀ key ttlMs fn, jobs t = some (.withLock key ttlMs fn) →
      ∃ x ∈ s.taken, x.task = t ∧ x.key = key ∧ x.ttlMs = ttlMs ∧ Standing x s
  | .randomUUID => True

variable {jobs : Tid → Option (Job W B T)}

theorem moves_leased {e : Effect W} (h : Leased s) (here : Owns jobs t s e)
    (moves : Moves t s e s') : Leased s' := by
  cases moves with
  | same => exact h
  | @named u new =>
    refine ⟨List.nodup_cons.mpr ⟨new, h.uuids⟩, ?_, ?_, h.stored⟩
    · exact fun x hx => List.mem_cons_of_mem _ (h.taken x hx)
    · exact fun t token mem => List.mem_cons_of_mem _ (h.granted t token mem)
  | @taken key token ttlMs free =>
    refine ⟨h.uuids, ?_, h.granted, fun key' l held => ?_⟩
    · intro x hx
      rcases List.mem_cons.mp hx with rfl | hx
      · exact here
      · exact h.taken x hx
    · rcases eq_or_ne key' key with rfl | ne
      · refine ⟨_, List.find?_cons_of_pos (by simp), ?_⟩
        simpa [LockStore.take] using held.symm
      · have before : s.locks key' = some l := (Function.update_of_ne ne ..).symm.trans held
        obtain ⟨x, last, same⟩ := h.stored key' l before
        refine ⟨x, ?_, same⟩
        exact (List.find?_cons_of_neg (by simp [Ne.symm ne])).trans last
  | @released key token =>
    rcases release_cases s key token with same | ⟨l, held, own, gone⟩
    · rw [same]
      exact h
    · rw [gone]
      refine ⟨h.uuids, h.taken, h.granted, fun key' l' held' => h.stored key' l' ?_⟩
      rcases eq_or_ne key' key with rfl | ne
      · simp at held'
      · exact (Function.update_of_ne ne ..).symm.trans held'
  | worked => exact ⟨h.uuids, h.taken, h.granted, h.stored⟩

/- Time does not put back a lock that has expired, and a lock in time is in nobody's way but its
owner's. -/
theorem moves_apart {e : Effect W} (h : Leased s) (here : Owns jobs t s e)
    (moves : Moves t s e s') {t' : Tid} (ne : t' ≠ t) : Apart t' s s' := by
  cases moves with
  | same => exact .refl t' s
  | named new =>
    exact ⟨fun _ hp => List.mem_cons_of_mem _ hp, fun _ hx => hx, fun _ hp => hp, fun _ ht => ht,
      fun _ _ _ _ stands => stands⟩
  | @taken key token ttlMs free =>
    refine ⟨fun _ hp => hp, fun _ hx => List.mem_cons_of_mem _ hx, fun _ hp => hp, fun _ ht => ht,
      fun x hx task kept stands inTime => ?_⟩
    have held := stands inTime
    have others : x.key ≠ key := by
      rintro rfl
      have there : s.lock x.key = some x.lock := lock_some.mpr ⟨held, inTime⟩
      exact nomatch free.symm.trans there
    exact (Function.update_of_ne others ..).trans held
  | @released key token =>
    rcases release_cases s key token with same | ⟨l, held, own, gone⟩
    · rw [same]
      exact .refl t' s
    · rw [gone]
      refine ⟨fun _ hp => hp, fun _ hx => hx, fun _ hp => hp, fun _ ht => ht,
        fun x hx task kept stands inTime => ?_⟩
      have mine := stands inTime
      have others : x.key ≠ key := by
        rintro rfl
        have same : x.lock = l := Option.some.inj (mine.symm.trans (lock_some.mp held).1)
        obtain ⟨j, _, drawn, allowed⟩ := here
        have token_eq : x.token = token := own ▸ congrArg Redis.Lock.token same
        have owner := h.owner (token_eq ▸ h.taken x hx) drawn
        rcases allowed with self | granted
        · exact ne (task.symm.trans (owner.trans self))
        · rw [← owner, task, ← token_eq] at granted
          exact kept granted
      exact (Function.update_of_ne others ..).trans mine
  | worked =>
    exact ⟨fun _ hp => hp, fun _ hx => hx, fun _ hp => hp, fun _ ht => ht,
      fun _ _ _ _ stands => stands⟩

variable (jobs G)

/-- The logic of the leases. -/
def owning : Logic (leases G T) where
  Inv := Leased
  Frame := Apart
  Fresh t s := ∀ token, (t, token) ∉ s.granted
  Here t e s := Owns jobs t s e
  Ok _ _ _ _ := True
  refl := Apart.refl
  trans _ _ _ _ := Apart.trans
  fresh _ _ _ fresh apart token mem := fresh token (apart.own token mem)

/-- What a call of `withLock` has once it has won: a lock that stands until it expires. -/
structure Won (t : Tid) (key : String) (ttlMs : Int) (token : Uuid) (s : LockStore ω) : Prop where
  drawn : (token, t) ∈ s.uuids
  kept : ∀ token, (t, token) ∉ s.granted
  standing : ∃ x ∈ s.taken, x.task = t ∧ x.key = key ∧ x.ttlMs = ttlMs ∧ Standing x s

variable {jobs G} {key token : String} {ttlMs : Int}

theorem Won.later (h : Won t key ttlMs token s) (apart : Apart t s s') :
    Won t key ttlMs token s' := by
  obtain ⟨x, mem, task, rfl, rfl, stands⟩ := h.standing
  constructor
  · exact apart.uuids _ h.drawn
  · exact fun token mem => h.kept token (apart.own token mem)
  · exact ⟨x, apart.taken x mem, task, rfl, rfl, apart.standing x mem task (h.kept _) stands⟩

theorem ask_owning {e : Effect W} {Q : Except Err (e.Answer B) → LockStore ω → Prop}
    (h : ∀ s₁, Apart t s s₁ → Leased s₁ → Owns jobs t s₁ e ∧
      ∀ c s₂ r, exec G t s₁ e c = some (s₂, r) → Q r s₂) :
    (owning G jobs).Safe t (ask e) Q s := by
  apply Logic.Safe.await
  intro s₁ apart inv
  obtain ⟨here, next⟩ := h s₁ apart inv
  refine ⟨here, fun c s₂ r _ he => ?_⟩
  have moves := exec_moves he
  exact ⟨⟨moves_leased inv here moves, fun t' ne => moves_apart inv here moves ne⟩,
    next c s₂ r he⟩

theorem Won.of_take (drawn : (token, t) ∈ s.uuids) (kept : ∀ token, (t, token) ∉ s.granted) :
    Won t key ttlMs token (s.take t key token ttlMs) := by
  constructor
  · exact drawn
  · exact kept
  · exact ⟨_, List.mem_cons_self .., rfl, rfl, rfl, fun _ => Function.update_self ..⟩

theorem acquireLock_owning (kept : ∀ token, (t, token) ∉ s.granted) :
    (owning G jobs).Safe t (acquireLock key ttlMs)
      (fun r s' => ∀ token, r = .ok (some token) → Won t key ttlMs token s') s := by
  apply Logic.Safe.bind
  refine ask_owning fun s₁ apart₁ _ => ⟨trivial, fun c s₂ r he => ?_⟩
  cases r with
  | error x => exact nofun
  | ok token =>
    obtain rfl := randomUUID_ok he
    apply Logic.Safe.bind
    refine ask_owning fun s₃ apart₃ _ => ?_
    have drawn := apart₃.uuids _ (List.mem_cons_self ..)
    refine ⟨drawn, fun c s₄ r he => ?_⟩
    cases r with
    | error x => exact nofun
    | ok won =>
      cases won with
      | false => exact fun _ never => nomatch never
      | true =>
        obtain rfl := setNx_won he
        intro token' same
        cases same
        exact .of_take drawn fun token mem => kept token (apart₁.own _ (apart₃.own _ mem))

theorem lift_owning {fn : Prog W B Err T} (won : Won t key ttlMs token s)
    (job : jobs t = some (.withLock key ttlMs fn)) :
    (owning G jobs).Safe t (lift fn) (fun _ => Won t key ttlMs token) s := by
  have only : (lift fn).Only fun e => ∃ w, e = .work w := translate_only fun w => ⟨w, rfl⟩
  refine Logic.Safe.of_only only (fun _ _ won apart _ => won.later apart) ?_ won
  rintro _ ⟨w, rfl⟩ s₁ inv won
  have here : Owns jobs t s₁ (.work w) := by
    intro key' ttlMs' fn' job'
    cases Option.some.inj (job.symm.trans job')
    exact won.standing
  refine ⟨here, fun c s₂ r _ he => ?_⟩
  have moves := exec_moves he
  refine ⟨⟨moves_leased inv here moves, fun t' ne => moves_apart inv here moves ne⟩, ?_⟩
  cases moves with
  | same => exact won
  | worked => exact ⟨won.drawn, won.kept, won.standing⟩

theorem releaseLock_owning {j : Job W B T} (job : jobs t = some j)
    (drawn : (token, j.taker t) ∈ s.uuids)
    (mine : j.taker t = t ∨ (j.taker t, token) ∈ s.granted) :
    (owning G jobs).Safe t (releaseLock key token) (fun _ _ => True) s := by
  apply Logic.Safe.handle
  refine ask_owning fun s₁ apart _ => ⟨⟨j, job, apart.uuids _ drawn, ?_⟩, fun c s₂ r _ => ?_⟩
  · exact mine.imp_right (apart.granted _)
  · cases r <;> trivial

theorem withLock_owning {fn : Prog W B Err T} (kept : ∀ token, (t, token) ∉ s.granted)
    (job : jobs t = some (.withLock key ttlMs fn)) :
    (owning G jobs).Safe t (withLock key ttlMs fn) (fun _ _ => True) s := by
  apply Logic.Safe.bind
  refine (acquireLock_owning kept).mono fun r s₁ won => ?_
  cases r with
  | error x => trivial
  | ok token =>
    cases token with
    | none => trivial
    | some token =>
      apply Logic.Safe.bind
      apply Logic.Safe.ensure
      refine (lift_owning (won token rfl) job).mono fun r s₂ won => ?_
      refine (releaseLock_owning job won.drawn (.inl rfl)).mono fun r' s₃ _ => ?_
      cases r' <;> cases r <;> trivial

/-- Starting a call with the job that it has. -/
def Assigned (jobs : Tid → Option (Job W B T)) (_ : Clients ω W B T) :
    Act (Job W B T) (Choice C) (Ext X) → Prop
  | .start t j => jobs t = some j
  | _ => True

theorem owning_verified (G : World ω W B C X) (jobs : Tid → Option (Job W B T)) :
    Logic.Verified (owning G jobs) (Assigned jobs)
      (fun t _ r s => ∀ token, r = .ok (.token (some token)) → (token, t) ∈ s.uuids) where
  allowed _ _ _ _ _ _ _ _ := trivial
  code p t j job ready inv kept := by
    cases j with
    | acquireLock key ttlMs =>
      apply Logic.Safe.bind
      refine (acquireLock_owning kept).mono fun r s won => ?_
      cases r with
      | error x => exact nofun
      | ok token =>
        intro token' same
        cases same
        exact (won token' rfl).drawn
    | releaseLock taker key token =>
      have granted : (taker, token) ∈ p.shared.granted := by simpa [leases] using ready
      apply Logic.Safe.bind
      refine (releaseLock_owning job (inv.granted _ _ granted) (.inr granted)).mono fun r s _ => ?_
      cases r <;> exact nofun
    | withLock key ttlMs fn =>
      apply Logic.Safe.bind
      refine (withLock_owning kept job).mono fun r s _ => ?_
      cases r <;> exact nofun
  finish t j r s inv drawn := by
    change (owning G jobs).Keeps t s (grant t s r)
    unfold grant
    split
    · rename_i token
      refine ⟨⟨inv.uuids, inv.taken, fun t' token' mem => ?_, inv.stored⟩, fun t' ne => ?_⟩
      · rcases List.mem_cons.mp mem with same | mem
        · cases same
          exact drawn token rfl
        · exact inv.granted t' token' mem
      · refine ⟨fun _ hp => hp, fun _ hx => hx, fun _ hp => List.mem_cons_of_mem _ hp, ?_,
          fun _ _ _ _ stands => stands⟩
        intro token' mem
        rcases List.mem_cons.mp mem with same | mem
        · cases same
          exact absurd rfl ne
        · exact mem
    · exact ⟨inv, fun t' _ => .refl t' s⟩
  ext p x s' _ inv h := by
    cases x with
    | tick d =>
      simp only [leases, ext] at h
      split at h
      · rename_i later
        cases h
        refine ⟨⟨inv.uuids, inv.taken, inv.granted, inv.stored⟩, fun t => ?_⟩
        refine ⟨fun _ hp => hp, fun _ hx => hx, fun _ hp => hp, fun _ ht => ht, ?_⟩
        intro x _ _ _ stands inTime
        have before : p.shared.clock ≤ x.clock + x.ttlMs := by
          have now : p.shared.clock + d ≤ x.clock + x.ttlMs := inTime
          omega
        exact stands before
      · cases h
    | world x =>
      obtain ⟨world, _, rfl⟩ := Option.map_eq_some_iff.mp h
      exact ⟨⟨inv.uuids, inv.taken, inv.granted, inv.stored⟩,
        fun t => ⟨fun _ hp => hp, fun _ hx => hx, fun _ hp => hp, fun _ ht => ht,
          fun _ _ _ _ stands => stands⟩⟩

theorem settle_store (t : Tid) (j : Job W B T) (s : LockStore ω) (b : Locked W B (Result T)) :
    ∃ granted, ((leases G T).settle t j s b).1 = { s with granted } := by
  have granting : ∀ r : Except Err (Result T), ∃ granted, grant t s r = { s with granted } := by
    intro r
    unfold grant
    split
    · exact ⟨_, rfl⟩
    · exact ⟨s.granted, rfl⟩
  cases b with
  | done a => exact granting (.ok a)
  | fail x => exact granting (.error x)
  | call e k => exact ⟨s.granted, rfl⟩

def Under (p : Clients ω W B T) (t : Tid) (key : String) : Prop :=
  ∃ ttlMs fn w k, p.slot t = .live (.withLock key ttlMs fn) (.work w) k

def InTime (p : Clients ω W B T) (t : Tid) : Prop :=
  ∀ x ∈ p.shared.taken, x.task = t → p.shared.clock ≤ x.clock + x.ttlMs

/-- A lease that has not expired is only ever removed by the release of the call that took it; the
bodies in time do not overlap; and a key can be taken again once the time to live of its last SET
is over. Clocks read whole milliseconds, so that is certain one reading later. -/
structure SafeLease (G : World ω W B C X) (p : Clients ω W B T) : Prop where
  own : ∀ a q key l, (leases G T).step p a = some q → p.shared.lock key = some l →
    q.shared.locks key ≠ some l → ∃ t c j k, a = .step t c ∧
      p.slot t = .live j (.releaseLock key l.token) k ∧
      ∃ x, p.shared.last key = some x ∧ l = x.lock ∧ x.task = j.taker t
  exclusive : ∀ t t' key, Under p t key → Under p t' key → InTime p t → InTime p t' → t = t'
  again : ∀ key, (∀ x, p.shared.last key = some x → x.clock + x.ttlMs < p.shared.clock) →
    ∀ t u ttlMs, p.slot t = .idle → u ∉ p.shared.uuids.map (·.1) → 0 < ttlMs →
      ∃ q, (leases G T).run p [.start t (.acquireLock key ttlMs), .step t (.uuid u), .step t .ok] =
        some q ∧ q.slot t = .ended (.acquireLock key ttlMs) (.ok (.token (some u)))

theorem release_own {p q : Clients ω W B T} {a : Act (Job W B T) (Choice C) (Ext X)}
    {jobs : Tid → Option (Job W B T)} (h : Logic.Sound (owning G jobs) (fun t _ r s =>
      ∀ token, r = .ok (.token (some token)) → (token, t) ∈ s.uuids) p)
    (same : ∀ t j, (p.slot t).job = some j → jobs t = some j)
    (st : (leases G T).step p a = some q) {key : String} {l : Redis.Lock}
    (held : p.shared.lock key = some l) (gone : q.shared.locks key ≠ some l) :
    ∃ t c j k, a = .step t c ∧ p.slot t = .live j (.releaseLock key l.token) k ∧
      ∃ x, p.shared.last key = some x ∧ l = x.lock ∧ x.task = j.taker t := by
  have stored := (lock_some.mp held).1
  cases Machine.steps_of_step st with
  | @start t j idle ready =>
    obtain ⟨granted, same⟩ := settle_store (G := G) t j p.shared (code j)
    exact absurd ((congrFun (congrArg LockStore.locks same) key).trans stored) gone
  | @step t c j e k s r live answered =>
    obtain ⟨granted, settled⟩ := settle_store (G := G) t j s (k r)
    have after : s.locks key ≠ some l :=
      fun kept => gone ((congrFun (congrArg LockStore.locks settled) key).trans kept)
    have here := h.here live
    cases exec_moves answered with
    | same => exact absurd stored after
    | named new => exact absurd stored after
    | worked => exact absurd stored after
    | @taken key' token ttlMs free =>
      have others : key ≠ key' := by
        rintro rfl
        exact nomatch free.symm.trans held
      exact absurd ((Function.update_of_ne others ..).trans stored) after
    | @released key' token =>
      rcases release_cases p.shared key' token with unchanged | ⟨l', held', rfl, removed⟩
      · rw [unchanged] at after
        exact absurd stored after
      · rcases eq_or_ne key key' with rfl | ne
        · cases Option.some.inj (held.symm.trans held')
          obtain ⟨x, last, rfl⟩ := h.inv.stored key l stored
          obtain ⟨j', job, drawn, _⟩ := here
          cases Option.some.inj ((same t j (by rw [live]; rfl)).symm.trans job)
          have known := h.inv.taken x (List.mem_of_find?_eq_some last)
          exact ⟨t, c, j, k, rfl, live, x, last, rfl, h.inv.owner known drawn⟩
        · rw [removed] at after
          exact absurd ((Function.update_of_ne ne ..).trans stored) after
  | kill live => exact absurd stored gone
  | @env x s happened =>
    cases x with
    | tick d =>
      simp only [leases, ext] at happened
      split at happened
      · cases happened
        exact absurd stored gone
      · cases happened
    | world x =>
      obtain ⟨world, _, rfl⟩ := Option.map_eq_some_iff.mp happened
      exact absurd stored gone

theorem acquire_again {p : Clients ω W B T} (inv : Leased p.shared) {key : String}
    (past : ∀ x, p.shared.last key = some x → x.clock + x.ttlMs < p.shared.clock) {t : Tid}
    {u : Uuid} {ttlMs : Int} (idle : p.slot t = .idle) (new : u ∉ p.shared.uuids.map (·.1))
    (lasts : 0 < ttlMs) :
    ∃ q, (leases G T).run p [.start t (.acquireLock key ttlMs), .step t (.uuid u), .step t .ok] =
      some q ∧ q.slot t = .ended (.acquireLock key ttlMs) (.ok (.token (some u))) := by
  have free : p.shared.lock key = none := by
    cases held : p.shared.lock key with
    | none => rfl
    | some l =>
      obtain ⟨stored, inTime⟩ := lock_some.mp held
      obtain ⟨x, last, rfl⟩ := inv.stored key l stored
      have late := past x last
      change p.shared.clock ≤ x.clock + x.ttlMs at inTime
      omega
  let j : Job W B T := .acquireLock key ttlMs
  let named := { p.shared with uuids := (u, t) :: p.shared.uuids }
  have still : named.lock key = none := free
  -- the call waits for its token, then for its SET, and then it has returned
  let won : Locked W B (Option Uuid) := do
    return if ← ask (.setNx key u ttlMs) then some u else none
  let rest : Locked W B (Result T) := do return .token (← won)
  let p₁ := Machine.put p t ((leases G T).settle t j p.shared (code j))
  let p₂ := Machine.put p₁ t ((leases G T).settle t j named rest)
  have drawn : (leases G T).exec t p₁.shared .randomUUID (.uuid u) = some (named, .ok u) :=
    if_neg new
  have taken : (leases G T).exec t p₂.shared (.setNx key u ttlMs) .ok =
      some (named.take t key u ttlMs, .ok true) := by
    change exec G t named (.setNx key u ttlMs) .ok = _
    simp [exec, lasts, still]
  have first : (leases G T).step p (.start t j) = some p₁ := Machine.step_start idle rfl
  have second : (leases G T).step p₁ (.step t (.uuid u)) = some p₂ :=
    Machine.step_answer (Machine.put_self ..) drawn
  have third := Machine.step_answer (Machine.put_self ..) taken
  let returned : Locked W B (Result T) := .done (.token (some u))
  refine ⟨Machine.put p₂ t ((leases G T).settle t j (named.take t key u ttlMs) returned), ?_,
    Machine.put_self ..⟩
  calc (leases G T).run p [.start t j, .step t (.uuid u), .step t .ok]
    _ = (leases G T).run p₁ [.step t (.uuid u), .step t .ok] := Machine.run_cons first _
    _ = (leases G T).run p₂ [.step t .ok] := Machine.run_cons second _
    _ = _ := Machine.run_cons third _

theorem lease_sound {Ok : Clients ω W B T → Act (Job W B T) (Choice C) (Ext X) → Prop}
    {clock : Int} {world : ω} {p : Clients ω W B T}
    (run : (leases G T).Reach Ok (noLocks clock world) p) :
    Logic.Sound (owning G fun t => (p.slot t).job) (fun t _ r s =>
      ∀ token, r = .ok (.token (some token)) → (token, t) ∈ s.uuids) p := by
  have start : Leased (noLocks clock world : Clients ω W B T).shared :=
    ⟨List.nodup_nil, nofun, nofun, nofun⟩
  refine Logic.reach_sound (owning_verified G fun t => (p.slot t).job)
    (Logic.initial_sound start fun _ _ => nofun) ((run.assigned .refl).mono fun r a ok => ?_)
  cases a with
  | start t j => exact ok.2 t j rfl
  | _ => trivial

/-- The lease is safe in every state that any number of clients can reach. -/
theorem lease_safe {clock : Int} {world : ω} {p : Clients ω W B T}
    (run : (leases G T).Reach (fun _ _ => True) (noLocks clock world) p) : SafeLease G p := by
  have sound := lease_sound run
  constructor
  · exact fun a q key l st held gone => release_own sound (fun _ _ job => job) st held gone
  · rintro t t' key ⟨ttlMs, fn, w, k, live⟩ ⟨ttlMs', fn', w', k', live'⟩ inTime inTime'
    obtain ⟨x, mem, task, rfl, _, stands⟩ := sound.here live _ _ _ (congrArg Slot.job live)
    obtain ⟨x', mem', task', same, _, stands'⟩ := sound.here live' _ _ _ (congrArg Slot.job live')
    have held := stands (inTime x mem task)
    have held' := stands' (inTime' x' mem' task')
    rw [same, held] at held'
    have token : x.token = x'.token := congrArg Redis.Lock.token (Option.some.inj held')
    have owner := sound.inv.owner (token ▸ sound.inv.taken x mem) (sound.inv.taken x' mem')
    rw [← task, ← task', owner]
  · exact fun key past t u ttlMs idle new lasts => acquire_again sound.inv past idle new lasts

def anyWork : World Unit Unit (fun _ => Unit) Unit Unit where
  perform _ _ world _ _ := some (world, .ok ())
  happen world _ := some world

/- The first holder is still at work when its lease expires and a second one takes the key. -/
def overtaken : List (Act (Job Unit (fun _ => Unit) Unit) (Choice Unit) (Ext Unit)) :=
  let job := .withLock "lock:event:e1" 5000 (await ())
  [.start 0 job, .step 0 (.uuid "a"), .step 0 .ok, .env (.tick 5001),
    .start 1 job, .step 1 (.uuid "b"), .step 1 .ok, .step 0 (.work ())]

theorem lease_safe_overtaken : ∃ p, (leases anyWork Unit).run (noLocks 0 ()) overtaken = some p ∧
    (p.shared.lock "lock:event:e1").map (·.token) = some "b" ∧ SafeLease anyWork p := by
  have replay : ((leases anyWork Unit).run (noLocks 0 ()) overtaken).map (fun p =>
      (p.shared.lock "lock:event:e1").map (·.token)) = some (some "b") := by decide +kernel
  obtain ⟨p, run, second⟩ := Option.map_eq_some_iff.mp replay
  exact ⟨p, run, second, lease_safe (.of_run run fun _ _ _ => trivial)⟩

end Overbook.Lease
