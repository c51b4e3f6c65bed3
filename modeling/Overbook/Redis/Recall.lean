import Overbook.Async.Linearizable
import Overbook.Async.Soundness
import Overbook.Redis.Machine

/-! What readers get once a key has been invalidated. Nothing older than the invalidation is
answered, as long as nothing older is written to the cache behind it. -/
namespace Overbook.Redis

open Async Prog

variable {V : Type}

/-- What is known of the payloads of one key: which of them the database has ever shown, and
which versions they reflect. -/
structure Payloads (V : Type) where
  key : String
  genuine : V → Prop
  reflects : Nat → V → Prop

variable (K : Payloads V) (jobs : Tid → Option Call)

def Fits (deleted : List (String × Nat)) (v : V) : Prop :=
  K.genuine v ∧ ∀ version, (K.key, version) ∈ deleted → K.reflects version v

def Since (call : Call) (s : CacheStore V) : Prop := call.after ≤ s.deleted.length

def Suits (call : Call) (v : V) (s : CacheStore V) : Prop :=
  Since call s ∧ (call.key = K.key → Fits K (s.deleted.take call.after) v)

/-- The database and the cache reflect all invalidations, and answers those before their call. -/
structure Reflected (s : CacheStore V) : Prop where
  database : Fits K s.deleted (s.database K.key)
  entries : ∀ e, s.entries K.key = some e → Fits K s.deleted e.v
  answers : ∀ t v call, (t, .ok v) ∈ s.answers → jobs t = some call → Suits K call v s

def Replies (t : Tid) (s : CacheStore V) : Effect V → Prop
  | .set key envelope _ => key = K.key → K.genuine envelope.v
  | .answer r => ∀ call, jobs t = some call → ∀ v, r = .ok v → Suits K call v s
  | _ => True

/-- What is written reflects all invalidations so far. -/
def Timed (s : CacheStore V) : Effect V → Choice → Prop
  | .set key envelope ttlSeconds, c => key = K.key → 0 < ttlSeconds → c ≠ .fail →
      ∀ version, (K.key, version) ∈ s.deleted → K.reflects version envelope.v
  | _, _ => True

variable {K jobs} {t : Tid} {s s' : CacheStore V} {c : Choice} {call : Call} {v : V}

theorem Fits.sublist {deleted less : List (String × Nat)} (h : Fits K deleted v)
    (sub : less ⊆ deleted) : Fits K less v :=
  ⟨h.1, fun version mem => h.2 version (sub mem)⟩

theorem Since.later (h : Since call s) (later : s.deleted <+: s'.deleted) : Since call s' :=
  Nat.le_trans h later.length_le

theorem Suits.later (h : Suits K call v s) (later : s.deleted <+: s'.deleted) :
    Suits K call v s' := by
  obtain ⟨since, fits⟩ := h
  refine ⟨since.later later, ?_⟩
  obtain ⟨more, eq⟩ := later
  rw [← eq, List.take_append_of_le_length since]
  exact fits

theorem moves_deleted {e : Effect V} (moves : Moves t s e s') : s'.deleted = s.deleted := by
  cases moves with
  | released => unfold CacheStore.release; split <;> rfl
  | _ => rfl

theorem moves_reflected {e : Effect V} (h : Reflected K jobs s) (here : Replies K jobs t s e)
    (timed : Timed K s e c) {r : Except Err e.Answer} (he : exec t s e c = some (s', r)) :
    Reflected K jobs s' := by
  cases exec_moves he with
  | same => exact h
  | @written key envelope ttlSeconds lasts =>
    by_cases refused : c = .fail
    · subst refused
      simp only [exec, Option.some.injEq, Prod.mk.injEq] at he
      rw [← he.1]
      exact h
    refine ⟨h.database, fun e stored => ?_, h.answers⟩
    by_cases same : key = K.key
    · subst same
      simp only [CacheStore.set, Function.update_self, Option.some.injEq] at stored
      rw [← stored]
      exact ⟨here rfl, timed rfl lasts refused⟩
    · exact h.entries e ((Function.update_of_ne (Ne.symm same) ..).symm.trans stored)
  | taken free => exact ⟨h.database, h.entries, h.answers⟩
  | lost => exact ⟨h.database, h.entries, h.answers⟩
  | slept => exact ⟨h.database, h.entries, h.answers⟩
  | released =>
    unfold CacheStore.release
    split
    · exact ⟨h.database, h.entries, h.answers⟩
    · exact h
  | named new => exact ⟨h.database, h.entries, h.answers⟩
  | loaded => exact ⟨h.database, h.entries, h.answers⟩
  | @answered r =>
    refine ⟨h.database, h.entries, fun t' v call mem job => ?_⟩
    rcases List.mem_append.mp mem with mem | mem
    · exact h.answers t' v call mem job
    · cases List.mem_singleton.mp mem
      exact here call job v rfl

variable {config : CacheConfig} {rounds : Nat}

/-- The logic of the invalidations: they are only ever added to. -/
def recalling (K : Payloads V) (jobs : Tid → Option Call) (config : CacheConfig) (rounds : Nat) :
    Logic (cache V config rounds) where
  Inv := Reflected K jobs
  Frame _ s s' := s.deleted <+: s'.deleted
  Fresh _ _ := True
  Here t e s := Replies K jobs t s e
  Ok _ s e c := Timed K s e c
  refl _ _ := List.prefix_refl _
  trans _ _ _ _ h h' := h.trans h'
  fresh _ _ _ _ _ := trivial

theorem ask_recall {e : Effect V} {J : CacheStore V → Prop}
    {Q : Except Err e.Answer → CacheStore V → Prop} (h : J s)
    (stable : ∀ s s', J s → s.deleted <+: s'.deleted → J s')
    (here : ∀ s, J s → Replies K jobs t s e)
    (next : ∀ s c s' r, J s → Reflected K jobs s → exec t s e c = some (s', r) → J s' → Q r s') :
    (recalling K jobs config rounds).Safe t (ask e) Q s := by
  apply Logic.Safe.await
  intro s₁ later inv
  have h₁ := stable s s₁ h later
  refine ⟨here s₁ h₁, fun c s₂ r timed he => ?_⟩
  have same : s₁.deleted <+: s₂.deleted :=
    (moves_deleted (exec_moves he)) ▸ List.prefix_refl s₁.deleted
  exact ⟨⟨moves_reflected inv (here s₁ h₁) timed he, fun _ _ => same⟩,
    next s₁ c s₂ r h₁ inv he (stable s₁ s₂ h₁ same)⟩

def Effect.Silent : Effect V → Prop
  | .set .. => False
  | .answer _ => False
  | _ => True

theorem silent_recall {α : Type} {p : Cached V α} {J : CacheStore V → Prop}
    (only : p.Only Effect.Silent) (stable : ∀ s s', J s → s.deleted <+: s'.deleted → J s')
    (h : J s) : (recalling K jobs config rounds).Safe t p (fun _ => J) s := by
  refine Logic.Safe.of_only only (fun s s' h later _ => stable s s' h later) ?_ h
  intro e silent s₁ inv h₁
  have asserted : Replies K jobs t s₁ e := by cases e <;> trivial
  refine ⟨asserted, fun c s₂ r timed he => ?_⟩
  have same : s₁.deleted <+: s₂.deleted :=
    (moves_deleted (exec_moves he)) ▸ List.prefix_refl s₁.deleted
  exact ⟨⟨moves_reflected inv asserted timed he, fun _ _ => same⟩, stable s₁ s₂ h₁ same⟩

def Returns (K : Payloads V) (call : Call) (r : Except Err V) (s : CacheStore V) : Prop :=
  Since call s ∧ ∀ v, r = .ok v → Suits K call v s

theorem load_recall (since : Since call s) :
    (recalling K jobs config rounds).Safe t (ask (.load call.key)) (Returns K call) s := by
  refine ask_recall since (fun _ _ => Since.later) (fun _ _ => trivial) ?_
  intro s₁ c s₂ r since₁ inv he since₂
  refine ⟨since₂, fun v ok => ?_⟩
  have value : v = s₁.database call.key := by
    subst ok
    cases c <;> simp [exec] at he
    exact he.2.symm
  have same := moves_deleted (exec_moves he)
  subst value
  refine ⟨since₂, fun mine => ?_⟩
  rw [same, mine]
  exact inv.database.sublist (List.take_subset _ _)

def Fetched (K : Payloads V) (call : Call) (r : Except Err (Option (CacheEnvelope V)))
    (s : CacheStore V) : Prop := Since call s ∧ ∀ e, r = .ok (some e) → Suits K call e.v s

theorem read_recall (since : Since call s) :
    (recalling K jobs config rounds).Safe t (read call.key) (Fetched K call) s := by
  apply Logic.Safe.handle
  refine ask_recall since (fun _ _ => Since.later) (fun _ _ => trivial) ?_
  intro s₁ c s₂ r since₁ inv he since₂
  cases r with
  | error x => exact ⟨since₂, fun _ h => nomatch h⟩
  | ok entry =>
    refine ⟨since₂, fun e found => ?_⟩
    have stored : entry = (s₁.entry call.key).map (·.toCacheEnvelope) := by
      cases c <;> simp [exec] at he
      exact he.2.symm
    have same := moves_deleted (exec_moves he)
    rw [Except.ok.inj found] at stored
    obtain ⟨e', live, rfl⟩ := Option.map_eq_some_iff.mp stored.symm
    refine ⟨since₂, fun mine => ?_⟩
    rw [same]
    rw [mine] at live
    exact (inv.entries e' (Option.filter_eq_some_iff.mp live).1).sublist (List.take_subset _ _)

theorem silent_ask {e : Effect V} (h : e.Silent) : (ask e).Only Effect.Silent :=
  (only_await e).mpr h

theorem write_recall {options : CacheOptions} (h : Suits K call v s) :
    (recalling K jobs config rounds).Safe t (write config options call.key v)
      (fun _ => Suits K call v) s := by
  have stable : ∀ s s', Suits K call v s → s.deleted <+: s'.deleted → Suits K call v s' :=
    fun _ _ => Suits.later
  have jitter : ∀ base bound, (ttlWithJitter base bound : Cached V Int).Only Effect.Silent := by
    intro base bound
    unfold ttlWithJitter
    split
    · trivial
    · exact only_bind (silent_ask trivial) fun _ => trivial
  apply Logic.Safe.bind
  refine (silent_recall (jitter _ _) stable h).mono fun r s₁ h₁ => ?_
  cases r with
  | error x => exact h₁
  | ok freshSeconds =>
    apply Logic.Safe.bind
    refine (silent_recall (silent_ask (e := .dateNow) trivial) stable h₁).mono fun r s₂ h₂ => ?_
    cases r with
    | error x => exact h₂
    | ok now =>
      apply Logic.Safe.handle
      refine ask_recall h₂ stable (fun s₃ h₃ mine => (h₃.2 mine).1) ?_
      intro s₃ c s₄ r _ _ _ h₄
      cases r <;> exact h₄

theorem loadAndWrite_recall {options : CacheOptions} (since : Since call s) :
    (recalling K jobs config rounds).Safe t (loadAndWrite config options call.key)
      (Returns K call) s := by
  apply Logic.Safe.bind
  refine (load_recall since).mono fun r s₁ h => ?_
  cases r with
  | error x => exact ⟨h.1, fun _ h => nomatch h⟩
  | ok value =>
    apply Logic.Safe.bind
    refine (write_recall (h.2 value rfl)).mono fun r s₂ h => ?_
    cases r with
    | error x => exact ⟨h.1, fun _ h => nomatch h⟩
    | ok u => exact ⟨h.1, fun v same => (Except.ok.inj same) ▸ h⟩

theorem sleep_silent (ms : Int) : (sleep ms : Cached V _).Only Effect.Silent :=
  only_bind (silent_ask trivial) fun _ => silent_ask trivial

theorem releaseLock_silent (key token : String) :
    (releaseLock key token : Cached V _).Only Effect.Silent :=
  only_handle (silent_ask trivial) fun _ => trivial

theorem acquireLock_silent (key : String) (ttlMs : Int) :
    (acquireLock key ttlMs : Cached V _).Only Effect.Silent :=
  only_bind (silent_ask trivial) fun _ => only_bind (silent_ask trivial) fun _ => trivial

/- The rule for a silent program in sequence. -/
theorem silent_bind {α β : Type} {p : Cached V α} {f : α → Cached V β}
    {Q : Except Err β → CacheStore V → Prop} (only : p.Only Effect.Silent) (since : Since call s)
    (next : ∀ a s, Since call s → (recalling K jobs config rounds).Safe t (f a) Q s)
    (stop : ∀ x s, Since call s → Q (.error x) s) :
    (recalling K jobs config rounds).Safe t (p >>= f) Q s := by
  apply Logic.Safe.bind
  refine (silent_recall only (fun _ _ => Since.later) since).mono fun r s₁ since₁ => ?_
  cases r with
  | ok a => exact next a s₁ since₁
  | error x => exact stop x s₁ since₁

theorem returns_error {x : Err} (since : Since call s) : Returns K call (.error x) s :=
  ⟨since, fun _ h => nomatch h⟩

theorem waitForWinner_recall (deadline : Int) (n : Nat) (since : Since call s) :
    (recalling K jobs config rounds).Safe t (waitForWinner call.key deadline n) (Returns K call) s := by
  induction n generalizing s with
  | zero => exact silent_bind (silent_ask trivial) since (fun never => never.elim) fun _ _ => returns_error
  | succ n ih =>
    refine silent_bind (silent_ask trivial) since (fun now s₁ since₁ => ?_) fun _ _ => returns_error
    split
    · refine silent_bind (sleep_silent 20) since₁ (fun _ s₂ since₂ => ?_) fun _ _ => returns_error
      apply Logic.Safe.bind
      refine (read_recall since₂).mono fun r s₃ seen => ?_
      match r with
      | .error x => exact returns_error seen.1
      | .ok none => exact ih seen.1
      | .ok (some entry) => exact ⟨seen.1, fun v same => (Except.ok.inj same) ▸ seen.2 entry rfl⟩
    · exact load_recall since₁

theorem ensure_recall {α : Type} {p : Cached V α} {q : Cached V Unit}
    {Q : Except Err α → CacheStore V → Prop} (h : (recalling K jobs config rounds).Safe t p Q s)
    (silent : q.Only Effect.Silent) (stable : ∀ r s s', Q r s → s.deleted <+: s'.deleted → Q r s')
    (stop : ∀ r x s, Q r s → Q (.error x) s) :
    (recalling K jobs config rounds).Safe t (p.ensure q) Q s := by
  apply Logic.Safe.ensure
  refine h.mono fun r s₁ hr => ?_
  refine (silent_recall silent (stable r) hr).mono fun u s₂ hu => ?_
  cases u with
  | ok _ => exact hu
  | error x => exact stop r x s₂ hu

theorem returns_later {r : Except Err V} (h : Returns K call r s)
    (later : s.deleted <+: s'.deleted) : Returns K call r s' :=
  ⟨h.1.later later, fun v ok => (h.2 v ok).later later⟩

theorem getOrLoad_recall {options : CacheOptions} (n : Nat) (since : Since call s) :
    (recalling K jobs config rounds).Safe t (getOrLoad config options call.key n)
      (fun r s => Returns K call (r.map (·.value)) s) s := by
  have wrap : ∀ {p : Cached V V} {s}, (recalling K jobs config rounds).Safe t p (Returns K call) s →
      (recalling K jobs config rounds).Safe t (do return { value := ← p } : Cached V (Served V))
        (fun r s => Returns K call (r.map (·.value)) s) s := by
    intro p s h
    apply Logic.Safe.bind
    refine h.mono fun r s' hr => ?_
    cases r <;> exact hr
  unfold getOrLoad
  split
  · exact wrap (load_recall since)
  · apply Logic.Safe.bind
    refine (read_recall since).mono fun r s₁ seen => ?_
    cases r with
    | error x => exact returns_error seen.1
    | ok entry =>
      have stable : ∀ s s', Fetched K call (.ok entry) s → s.deleted <+: s'.deleted →
          Fetched K call (.ok entry) s' :=
        fun _ _ h later => ⟨h.1.later later, fun e found => (h.2 e found).later later⟩
      apply Logic.Safe.bind
      refine (silent_recall (silent_ask (e := .dateNow) trivial) stable seen).mono fun r s₂ seen => ?_
      cases r with
      | error x => exact returns_error seen.1
      | ok now =>
        cases entry with
        | some entry =>
          have hit : Returns K call (.ok entry.v) s₂ :=
            ⟨seen.1, fun v same => (Except.ok.inj same) ▸ seen.2 entry rfl⟩
          simp only
          split
          · exact hit
          · split
            · exact hit
            · exact wrap (loadAndWrite_recall seen.1)
        | none =>
          simp only
          split
          · refine wrap ?_
            refine silent_bind (acquireLock_silent _ _) seen.1 (fun won s₃ since₃ => ?_)
              fun _ _ => returns_error
            cases won with
            | some token =>
              exact ensure_recall (loadAndWrite_recall since₃) (releaseLock_silent _ _)
                (fun _ _ _ => returns_later) fun _ _ _ h => returns_error h.1
            | none =>
              refine silent_bind (silent_ask trivial) since₃ (fun now s₄ since₄ => ?_)
                fun _ _ => returns_error
              exact waitForWinner_recall _ n since₄
          · exact wrap (loadAndWrite_recall seen.1)

theorem refreshInBackground_recall {options : CacheOptions} (since : Since call s) :
    (recalling K jobs config rounds).Safe t (refreshInBackground config options call.key)
      (fun _ _ => True) s := by
  apply Logic.Safe.handle
  refine silent_bind (acquireLock_silent _ _) since (fun won s₁ since₁ => ?_) fun _ _ _ => trivial
  cases won with
  | none => trivial
  | some token =>
    refine (ensure_recall (Q := fun _ => Since call) ?_ (releaseLock_silent _ _)
      (fun _ _ _ => Since.later) fun _ _ _ h => h).mono fun r _ _ => by cases r <;> trivial
    apply Logic.Safe.bind
    refine (loadAndWrite_recall since₁).mono fun r s₂ h => ?_
    cases r <;> exact h.1

theorem serve_recall (job : jobs t = some call) (since : Since call s) :
    (recalling K jobs config rounds).Safe t (serve config call.options call.key rounds)
      (fun _ _ => True) s := by
  apply Logic.Safe.bind
  apply Logic.Safe.outcome
  refine (getOrLoad_recall rounds since).mono fun r s₁ h => ?_
  apply Logic.Safe.bind
  refine ask_recall h (fun _ _ => returns_later) (fun s h call' job' v ok => ?_)
    fun s₂ c s₃ r' _ _ _ h => ?_
  · cases Option.some.inj (job.symm.trans job')
    exact h.2 v ok
  · cases r' with
    | error x => trivial
    | ok u =>
      cases r with
      | error x => trivial
      | ok served =>
        unfold runIf
        simp only
        split
        · exact (refreshInBackground_recall h.1).mono fun _ _ _ => trivial
        · trivial

/-- The database shows genuine payloads only, and none that is older than an invalidation; and
nothing older than one is written to the cache. -/
def Advances (K : Payloads V) (p : Calls V) : Act Call Choice (Ext V) → Prop
  | .step t c => ∀ j e k, p.slot t = .live j e k → Timed K p.shared e c
  | .env (.commit database) => Fits K p.shared.deleted (database K.key)
  | .env (.del key version) => key = K.key → K.reflects version (p.shared.database K.key)
  | _ => True

theorem recall_verified (K : Payloads V) (jobs : Tid → Option Call) (config : CacheConfig)
    (rounds : Nat) : Logic.Verified (recalling K jobs config rounds)
      (fun p a => Advances K p a ∧ ∀ t call, a = .start t call → jobs t = some call)
      (fun _ _ _ _ => True) where
  allowed p t c j e k ok live := ok.1 j e k live
  code p t call ok ready _ _ := by
    have since : call.after = p.shared.deleted.length := by simpa [cache] using ready
    exact serve_recall (ok.2 t call rfl) (Nat.le_of_eq since)
  finish _ _ _ _ inv _ := ⟨inv, fun _ _ => List.prefix_refl _⟩
  ext p x s' ok inv h := by
    cases x with
    | tick d =>
      simp only [cache, ext] at h
      split at h
      · cases h
        exact ⟨⟨inv.database, inv.entries, inv.answers⟩, fun _ => List.prefix_refl _⟩
      · cases h
    | commit database =>
      cases h
      exact ⟨⟨ok.1, inv.entries, inv.answers⟩, fun _ => List.prefix_refl _⟩
    | del key version =>
      cases h
      have later : p.shared.deleted <+: (p.shared.del key version).deleted := ⟨_, rfl⟩
      have extend : ∀ v, (key = K.key → K.reflects version v) → Fits K p.shared.deleted v →
          Fits K (p.shared.del key version).deleted v := by
        intro v new fits
        refine ⟨fits.1, fun version' mem => ?_⟩
        rcases List.mem_append.mp mem with mem | mem
        · exact fits.2 version' mem
        · cases List.mem_singleton.mp mem
          exact new rfl
      refine ⟨⟨extend _ ok.1 inv.database, fun e stored => ?_, ?_⟩, fun _ => later⟩
      · by_cases same : key = K.key
        · subst same
          simp [CacheStore.del] at stored
        · have old : p.shared.entries K.key = some e :=
            (Function.update_of_ne (Ne.symm same) ..).symm.trans stored
          exact extend _ (fun mine => absurd mine same) (inv.entries e old)
      · exact fun t v call mem job => (inv.answers t v call mem job).later later

/-- No answer is behind an invalidation that its call came after. -/
theorem answers_reflect {K : Payloads V} {database : String → V} {clock : Int} {p : Calls V}
    (genuine : K.genuine (database K.key))
    (run : (cache V config rounds).Reach (Advances K) (emptyCache clock database) p)
    (job : (p.slot t).job = some call) (key : call.key = K.key)
    (answered : (t, .ok v) ∈ p.shared.answers) :
    call.after ≤ p.shared.deleted.length ∧ Fits K (p.shared.deleted.take call.after) v := by
  have assigned := run.assigned .refl
  have start : Reflected K (fun t => (p.slot t).job) (emptyCache clock database).shared :=
    ⟨⟨genuine, nofun⟩, nofun, nofun⟩
  have sound := Logic.reach_sound (recall_verified K (fun t => (p.slot t).job) config rounds)
    (Logic.initial_sound start fun _ => trivial) assigned
  obtain ⟨since, suits⟩ := sound.inv.answers t v call answered job
  exact ⟨since, suits key⟩

theorem deleted_grows {Ok : Calls V → Act Call Choice (Ext V) → Prop} {p q : Calls V}
    (run : (cache V config rounds).Reach Ok p q) : p.shared.deleted <+: q.shared.deleted := by
  induction run with
  | refl => exact List.prefix_refl _
  | @step q q' a _ _ st ih =>
    refine ih.trans ?_
    have settled : ∀ {t call s} {b : Cached V Unit},
        ((cache V config rounds).settle t call s b).1 = s := by
      intro t call s b
      cases b <;> rfl
    cases Machine.steps_of_step st with
    | start idle ready =>
      change _ <+: ((cache V config rounds).settle _ _ _ _).1.deleted
      exact settled ▸ List.prefix_refl _
    | step live answered =>
      change _ <+: ((cache V config rounds).settle _ _ _ _).1.deleted
      have same := moves_deleted (exec_moves answered)
      exact settled ▸ same ▸ List.prefix_refl _
    | kill live => exact List.prefix_refl _
    | @env x s happened =>
      cases x with
      | tick d =>
        simp only [cache, ext] at happened
        split at happened
        · cases happened
          exact List.prefix_refl _
        · cases happened
      | commit database => cases happened; exact List.prefix_refl _
      | del key version => cases happened; exact List.prefix_append ..

/-- A call comes after all invalidations that were made while it was still to start. -/
theorem started_after {Ok : Calls V → Act Call Choice (Ext V) → Prop} {p q : Calls V}
    (run : (cache V config rounds).Reach Ok p q) (idle : p.slot t = .idle)
    (job : (q.slot t).job = some call) : p.shared.deleted.length ≤ call.after := by
  obtain ⟨r, before, _, ready⟩ := run.started idle job
  have since : call.after = r.shared.deleted.length := by simpa [cache] using ready
  rw [since]
  exact (deleted_grows before).length_le

end Overbook.Redis
