import Overbook.Async.Layer
import Overbook.Async.Past
import Overbook.Idempotency.OneBooking

/-! Where a replayed response comes from. A row is filled in by whoever inserted it, so what it
replays was booked by a request with the row's fingerprint, as long as no claim finds the row of its
key gone. -/
namespace Overbook.Idempotency

open Async Prog OneUse

variable {B R : Type}

def Request.fingerprint (requestFingerprint : String → String → B → String)
    (request : Request B) : String :=
  requestFingerprint request.method request.originalUrl request.body

def Choice.smooth : Choice R → Prop
  | .fail => False
  | .lostReply => False
  | _ => True

variable {requestFingerprint : String → String → B → String}

/-- The row holds the response of this booking, made by its owner for the same request. -/
structure Backs (requestFingerprint : String → String → B → String) (K : String) (row : Claimed R)
    (b : Booked B R) : Prop where
  key : b.request.key = some K
  owner : b.owner = row.owner
  fingerprint : b.request.fingerprint requestFingerprint = row.requestHash
  status : row.responseStatus = some b.status
  body : row.responseBody = some b.body

def Backed (requestFingerprint : String → String → B → String) (K : String) (s : KeyStore B R) :
    Prop :=
  ∀ row, s.keys K = some row → row.status = .completed →
    ∃ b ∈ s.booked, Backs requestFingerprint K row b

def Holds (K : String) (fingerprint : String) (t : Tid) (s : KeyStore B R) : Prop :=
  ∃ row, s.keys K = some row ∧ row.owner = t ∧ row.requestHash = fingerprint

def Outside (K : String) (t : Tid) (s : KeyStore B R) : Prop :=
  (rightOn K s).holder ≠ some t ∧ t ∉ (rightOn K s).users

def GoesBy (requestFingerprint : String → String → B → String) (K : String) (t : Tid)
    (s : KeyStore B R) : Effect B R → Prop
  | .handle request =>
    request.key = some K → Holds K (request.fingerprint requestFingerprint) t s
  | .updateKey key status body => key = K → ∃ b ∈ s.booked, b.owner = t ∧ b.request.key = some K ∧
      Holds K (b.request.fingerprint requestFingerprint) t s ∧ b.status = status ∧ b.body = body
  | .insertKey _ row => row.status = .inProgress
  | .findKey key => key = K → Outside K t s
  | _ => True

structure Unmoved (K : String) (t : Tid) (s s' : KeyStore B R) : Prop where
  booked : s.booked <+: s'.booked
  row : ∀ row, s.keys K = some row → row.owner = t → s'.keys K = some row

variable {K : String} {t : Tid} {s s' : KeyStore B R} {c : Choice R}

theorem Unmoved.refl (t : Tid) (s : KeyStore B R) : Unmoved K t s s :=
  ⟨List.prefix_rfl, fun _ h _ => h⟩

theorem Unmoved.trans {s'' : KeyStore B R} (h : Unmoved K t s s') (h' : Unmoved K t s' s'') :
    Unmoved K t s s'' :=
  ⟨h.booked.trans h'.booked, fun row hk own => h'.row row (h.row row hk own) own⟩

theorem Holds.unmoved {fingerprint : String} (h : Holds K fingerprint t s)
    (f : Unmoved K t s s') : Holds K fingerprint t s' := by
  obtain ⟨row, hk, own, same⟩ := h
  exact ⟨row, f.row row hk own, own, same⟩

theorem Outside.undisturbed (h : Outside K t s) (u : (rightOn K s).Undisturbed t (rightOn K s')) :
    Outside K t s' :=
  ⟨fun held => h.1 (u.holder.mp held), fun used => h.2 (u.users.mp used)⟩

theorem booked_grows {e : Effect B R} (moves : Moves t s e s') : s.booked <+: s'.booked := by
  cases moves with
  | same => exact List.prefix_rfl
  | inserted key row =>
    unfold KeyStore.insertKey
    split <;> exact List.prefix_rfl
  | booked => exact List.prefix_append ..
  | updated => exact List.prefix_rfl
  | deleted => exact List.prefix_rfl
  | answered => exact List.prefix_rfl

theorem answers_grow {e : Effect B R} (moves : Moves t s e s') : s.answers <+: s'.answers := by
  cases moves with
  | same => exact List.prefix_rfl
  | inserted key row =>
    unfold KeyStore.insertKey
    split <;> exact List.prefix_rfl
  | booked => exact List.prefix_rfl
  | updated => exact List.prefix_rfl
  | deleted => exact List.prefix_rfl
  | answered => exact List.prefix_append ..

theorem moves_row {e : Effect B R} (moves : Moves t s e s') {row : Claimed R}
    (hk : s'.keys K = some row) :
    s.keys K = some row ∨
      (s.keys K = none ∧ row.owner = t ∧ ∃ row', e = .insertKey K row' ∧
        row = { row' with owner := t }) ∨
      ∃ status body old, e = .updateKey K status body ∧ s.keys K = some old ∧ row =
        { old with
          status := .completed
          responseStatus := some status
          responseBody := some body } := by
  cases moves with
  | same => exact .inl hk
  | booked => exact .inl hk
  | answered => exact .inl hk
  | inserted key row' =>
    unfold KeyStore.insertKey at hk
    split at hk
    · exact .inl hk
    · rename_i free
      rcases eq_or_ne K key with rfl | ne
      · rw [s.put_self] at hk
        cases hk
        exact .inr (.inl ⟨by simpa using free, rfl, row', rfl, rfl⟩)
      · rw [s.put_of_ne ne] at hk
        exact .inl hk
  | updated key status body =>
    rcases eq_or_ne K key with rfl | ne
    · rw [KeyStore.updateKey, s.put_self] at hk
      obtain ⟨old, was, rfl⟩ := Option.map_eq_some_iff.mp hk
      exact .inr (.inr ⟨status, body, old, rfl, was, rfl⟩)
    · rw [KeyStore.updateKey, s.put_of_ne ne] at hk
      exact .inl hk
  | deleted key =>
    rcases eq_or_ne K key with rfl | ne
    · rw [s.put_self] at hk
      cases hk
    · rw [s.put_of_ne ne] at hk
      exact .inl hk

theorem backed_step {e : Effect B R} (h : Backed requestFingerprint K s)
    (goes : GoesBy requestFingerprint K t s e) (moves : Moves t s e s') :
    Backed requestFingerprint K s' := by
  have more := booked_grows moves
  intro row hk completed
  rcases moves_row moves hk with was | ⟨-, -, row', rfl, rfl⟩ | ⟨status, body, old, rfl, was, rfl⟩
  · obtain ⟨b, mem, backs⟩ := h row was completed
    exact ⟨b, more.subset mem, backs⟩
  · exact nomatch (show row'.status = .inProgress from goes).symm.trans completed
  · obtain ⟨b, mem, own, key, ⟨row, here, owner, hash⟩, rfl, rfl⟩ := goes rfl
    cases was.symm.trans here
    exact ⟨b, more.subset mem, key, own.trans owner.symm, hash.symm, rfl, rfl⟩

theorem unmoved_step {e : Effect B R} (asserts : Asserts K t s e)
    (goes : GoesBy requestFingerprint K t s e) (moves : Moves t s e s') {t' : Tid} (other : t' ≠ t) :
    Unmoved K t' s s' := by
  refine ⟨booked_grows moves, fun row hk own => ?_⟩
  cases moves with
  | same => exact hk
  | booked => exact hk
  | answered => exact hk
  | inserted key row' =>
    unfold KeyStore.insertKey
    split
    · exact hk
    · rename_i free
      rcases eq_or_ne K key with rfl | ne
      · simp [hk] at free
      · exact (s.put_of_ne ne _).trans hk
  | updated key status body =>
    rcases eq_or_ne key K with rfl | ne
    · obtain ⟨b, -, -, -, ⟨row', here, owner, -⟩, -, -⟩ := goes rfl
      cases hk.symm.trans here
      exact absurd (own.symm.trans owner) other
    · exact (s.put_of_ne ne.symm _).trans hk
  | deleted key =>
    rcases eq_or_ne key K with rfl | ne
    · have holds : (s.keys key).map (·.owner) = some t := (asserts rfl).holds
      rw [hk] at holds
      exact absurd (own.symm.trans (Option.some.inj holds)) other
    · exact (s.put_of_ne ne.symm _).trans hk

variable {allowed : Choice R → Prop}

def provenance (K : String) (requestFingerprint : String → String → B → String)
    (allowed : Choice R → Prop) :
    Layer ((ownership K requestFingerprint).under fun _ s e c => Present K s e ∧ allowed c) where
  Inv := Backed requestFingerprint K
  Frame := Unmoved K
  Fresh := Outside K
  Here t e s := GoesBy requestFingerprint K t s e
  refl := .refl
  trans _ _ _ _ h h' := h.trans h'
  fresh _ _ _ h f _ := h.undisturbed f
  keeps t s e c s' r once backed here goes _ he := by
    have step := moves_right here (exec_moves he)
    exact ⟨⟨step.once once, fun _ other => step.undisturbed other⟩,
      backed_step backed goes (exec_moves he),
      fun t' other => unmoved_step here goes (exec_moves he) other⟩

def Foreign (K : String) : Effect B R → Prop
  | .handle request => request.key ≠ some K
  | .insertKey key row => key ≠ K ∧ row.status = .inProgress
  | .updateKey key _ _ => key ≠ K
  | .deleteKey key => key ≠ K
  | _ => True

theorem rightOn_foreign {e : Effect B R} (foreign : Foreign K e) (moves : Moves t s e s') :
    rightOn K s' = rightOn K s := by
  cases moves with
  | same => rfl
  | answered => rfl
  | booked request status body =>
    rw [rightOn_append]
    exact if_neg foreign
  | updated key => exact rightOn_update s key _ _
  | deleted key => exact rightOn_put foreign s _
  | inserted key row =>
    unfold KeyStore.insertKey
    split
    · rfl
    · exact rightOn_put foreign.1 s _

theorem foreign_goes {e : Effect B R} (foreign : Foreign K e) (outside : Outside K t s) :
    GoesBy requestFingerprint K t s e := by
  cases e with
  | handle request => exact fun key => absurd key foreign
  | updateKey key => exact fun key => absurd key foreign
  | insertKey => exact foreign.2
  | findKey => exact fun _ => outside
  | _ => trivial

theorem outside_safe {α : Type} {p : Handler B R α} (only : p.Only (Foreign K))
    (h : Outside K t s) : (provenance K requestFingerprint allowed).rest.Safe t p
      (fun _ s' => Outside K t s') s := by
  refine Layer.only_safe only (fun s s' h f _ => h.undisturbed f.1)
    (fun e foreign s h => foreign_goes foreign h) ?_ h
  intro e foreign s _ h c s' r _ _ he
  unfold Outside
  rw [rightOn_foreign foreign (exec_moves he)]
  exact h

def Filled (K : String) (t : Tid) (s : KeyStore B R) : Prop :=
  ∀ row, s.keys K = some row → row.owner = t → row.status = .completed

theorem Outside.filled (h : Outside K t s) : Filled K t s := by
  intro row hk own
  refine absurd ?_ h.1
  rw [rightOn, hk]
  exact congrArg some own

theorem ask_foreign {e : Effect B R} (h : Foreign K e) : (ask e).Only (Foreign K) :=
  (only_await e).mpr h

theorem answer_foreign (reply : Except Err (Reply R)) :
    (answer (B := B) reply).Only (Foreign K) := ask_foreign (by trivial)

theorem reply_safe (reply : Except Err (Reply R))
    (h : (∀ c, allowed c → c.smooth) → Outside K t s) :
    (provenance K requestFingerprint allowed).rest.Safe t (answer reply)
      (fun _ s' => (∀ c, allowed c → c.smooth) → Filled K t s') s := by
  by_cases smooth : ∀ c, allowed c → c.smooth
  · exact (outside_safe (answer_foreign reply) (h smooth)).mono fun _ _ last _ => last.filled
  · refine Layer.await_safe fun s₁ _ _ => ⟨trivial, fun c s₂ r _ _ _ _ => ?_⟩
    exact fun always => absurd always smooth

theorem smooth_ok {e : Effect B R} {x : Err} (h : exec t s e c = some (s', .error x))
    (smooth : c.smooth) : ∃ request, e = .handle request := by
  cases e <;> cases c <;> simp only [exec, reduceCtorEq, Option.some.injEq, Prod.mk.injEq,
    and_false] at h
  case handle.threw => exact ⟨_, rfl⟩
  all_goals exact smooth.elim

theorem booked_ok {request : Request B} {result : Nat × R}
    (h : exec t s (.handle request) c = some (s', .ok result)) :
    s' = { s with booked := s.booked ++ [⟨request, t, result.1, result.2⟩] } := by
  cases c <;> simp only [exec, Option.some.injEq, Prod.mk.injEq, reduceCtorEq, and_false,
    Except.ok.injEq] at h
  obtain ⟨rfl, rfl⟩ := h
  rfl

theorem updated_ok {key : String} {status : Nat} {body : R} {u : Unit}
    (h : exec t s (.updateKey key status body) c = some (s', .ok u)) :
    s' = s.updateKey key status body := by
  cases c <;> simp only [exec, Option.some.injEq, Prod.mk.injEq, reduceCtorEq, and_false] at h
  exact h.1.symm

theorem deleted_ok {key : String} {u : Unit}
    (h : exec t s (.deleteKey key) c = some (s', .ok u)) : s' = s.put key none := by
  cases c <;> simp only [exec, Option.some.injEq, Prod.mk.injEq, reduceCtorEq, and_false] at h
  exact h.1.symm

theorem complete_fills {b : Booked B R} (mem : b ∈ s.booked) (own : b.owner = t)
    (key : b.request.key = some K)
    (holds : Holds K (b.request.fingerprint requestFingerprint) t s) :
    (provenance K requestFingerprint allowed).rest.Safe t (complete K b.status b.body)
      (fun _ s' => (∀ c, allowed c → c.smooth) → Filled K t s') s := by
  apply Logic.Safe.handle
  refine Layer.await_safe fun s₁ f _ => ⟨?_, fun c s₂ r ok _ he _ => ?_⟩
  · exact fun _ => ⟨b, f.2.booked.subset mem, own, key, holds.unmoved f.2, rfl, rfl⟩
  · cases r with
    | error x =>
      intro smooth
      obtain ⟨_, other⟩ := smooth_ok he (smooth c ok.2)
      cases other
    | ok u =>
      intro _ row hk _
      rw [updated_ok he, KeyStore.updateKey, s₁.put_self] at hk
      obtain ⟨old, -, rfl⟩ := Option.map_eq_some_iff.mp hk
      rfl

theorem release_fills :
    (provenance K requestFingerprint allowed).rest.Safe t (release K)
      (fun _ s' => (∀ c, allowed c → c.smooth) → Filled K t s') s := by
  apply Logic.Safe.handle
  refine Layer.await_safe fun s₁ f _ => ⟨trivial, fun c s₂ r ok _ he _ => ?_⟩
  cases r with
  | error x =>
    intro smooth
    obtain ⟨_, other⟩ := smooth_ok he (smooth c ok.2)
    cases other
  | ok u =>
    intro _ row hk _
    rw [deleted_ok he, s₁.put_self] at hk
    cases hk

theorem guarded_fills {request : Request B} (key : request.key = some K)
    (holds : Holds K (request.fingerprint requestFingerprint) t s) :
    (provenance K requestFingerprint allowed).rest.Safe t (guarded K request)
      (fun _ s' => (∀ c, allowed c → c.smooth) → Filled K t s') s := by
  apply Logic.Safe.bind
  apply Logic.Safe.outcome
  refine Layer.await_safe fun s₁ f₁ _ => ⟨fun _ => holds.unmoved f₁.2, fun c s₂ r ok _ he _ => ?_⟩
  have held := holds.unmoved f₁.2
  cases r with
  | ok result =>
    cases booked_ok he
    apply Logic.Safe.bind
    refine Layer.await_safe fun s₃ f₃ _ => ⟨trivial, fun c s₄ r ok₄ _ he _ => ?_⟩
    have more := booked_grows (exec_moves he)
    cases r with
    | error x =>
      intro smooth
      obtain ⟨_, other⟩ := smooth_ok he (smooth c ok₄.2)
      cases other
    | ok u =>
      have answered : s₄.keys = s₃.keys := by
        cases exec_moves he <;> rfl
      have mine : (⟨request, t, result.1, result.2⟩ : Booked B R) ∈ s₃.booked :=
        f₃.2.booked.subset (List.mem_append_right _ (List.mem_singleton_self _))
      obtain ⟨row, here, owner, hash⟩ := held
      have still : s₃.keys K = some row := f₃.2.row row here owner
      exact complete_fills (more.subset mine) rfl key ⟨row, answered ▸ still, owner, hash⟩
  | error error =>
    apply Logic.Safe.bind
    refine Layer.await_safe fun s₃ _ _ => ⟨trivial, fun c s₄ r ok₄ _ he _ => ?_⟩
    cases r with
    | error x =>
      intro smooth
      obtain ⟨_, other⟩ := smooth_ok he (smooth c ok₄.2)
      cases other
    | ok u => exact release_fills

/-- A claim proceeds with a row of its own, or stands outside. -/
theorem claim_holds {endpoint fingerprint : String} (outside : Outside K t s) :
    (provenance K requestFingerprint allowed).rest.Safe t
      (claim (B := B) K endpoint fingerprint)
      (fun r s' => match r with
        | .ok .proceed => Holds K fingerprint t s'
        | _ => (∀ c, allowed c → c.smooth) → Outside K t s') s := by
  apply Logic.Safe.bind
  refine (outside_safe (ask_foreign (e := .dateNow) trivial) outside).mono fun r s₁ outside => ?_
  cases r with
  | error x => exact fun _ => outside
  | ok now =>
    apply Logic.Safe.bind
    refine Layer.await_safe fun s₂ f₂ _ => ⟨rfl, fun c s₃ r ok _ he _ => ?_⟩
    have before : Outside K t s₂ := outside.undisturbed f₂.1
    cases r with
    | error x =>
      intro smooth
      obtain ⟨_, other⟩ := smooth_ok he (smooth c ok.2)
      cases other
    | ok won =>
      obtain ⟨rfl, rfl⟩ := inserted_ok he
      dsimp only
      cases free : s₂.keys K with
      | none =>
        refine ⟨{ endpoint, requestHash := fingerprint, expiresAt := now + ttl, owner := t }, ?_⟩
        simp [KeyStore.insertKey, free]
      | some row =>
        have lost : s₂.insertKey t K { endpoint, requestHash := fingerprint, expiresAt := now + ttl } =
            s₂ := by
          rw [KeyStore.insertKey, free]
          rfl
        rw [lost]
        apply Logic.Safe.bind
        refine Layer.await_safe fun s₄ f₄ _ => ⟨fun _ => before.undisturbed f₄.1, ?_⟩
        intro c s₅ r ok _ he _
        have after : Outside K t s₅ := by
          unfold Outside
          rw [rightOn_foreign (e := .findKey K) trivial (exec_moves he)]
          exact before.undisturbed f₄.1
        cases r with
        | error x => exact fun _ => after
        | ok found =>
          have there := ok.1 rfl
          rw [found_ok he]
          obtain ⟨existing, here⟩ := Option.isSome_iff_exists.mp there
          rw [here]
          have stops := onExisting_stops fingerprint existing.toIdempotencyKey
          dsimp only [Option.map_some]
          cases hr : onExisting fingerprint (some existing.toIdempotencyKey) with
          | error x => exact fun _ => after
          | ok claim =>
            cases claim with
            | proceed => exact absurd hr stops
            | replay => exact fun _ => after

theorem guarded_foreign {key : String} {request : Request B} (own : request.key = some key)
    (ne : key ≠ K) : (guarded (R := R) key request).Only (Foreign K) := by
  have other : request.key ≠ some K := fun same => ne (Option.some.inj (own.symm.trans same))
  refine only_bind (only_outcome (ask_foreign other)) fun r => ?_
  cases r with
  | ok result =>
    refine only_bind (answer_foreign _) fun _ => ?_
    exact only_handle (ask_foreign ne) fun _ => trivial
  | error error =>
    refine only_bind (answer_foreign _) fun _ => ?_
    exact only_handle (ask_foreign ne) fun _ => trivial

theorem claim_foreign {key endpoint fingerprint : String} (ne : key ≠ K) :
    (claim (B := B) (R := R) key endpoint fingerprint).Only (Foreign K) := by
  refine only_bind (ask_foreign (by trivial)) fun now => ?_
  refine only_bind (ask_foreign ⟨ne, rfl⟩) fun won => ?_
  cases won with
  | true => trivial
  | false => exact only_bind (ask_foreign (by trivial)) fun _ => only_ofExcept _

theorem intercept_foreign {request : Request B} (ne : request.key ≠ some K) :
    (intercept (R := R) requestFingerprint request).Only (Foreign K) := by
  cases key : request.key with
  | none =>
    simp only [intercept, key]
    exact only_bind (only_outcome (ask_foreign ne)) fun _ => answer_foreign _
  | some key' =>
    simp only [intercept, key]
    have other : key' ≠ K := by
      rintro rfl
      exact ne key
    refine only_bind (only_outcome (claim_foreign other)) fun r => ?_
    cases r with
    | error error => exact answer_foreign _
    | ok won =>
      cases won with
      | replay status body => exact answer_foreign _
      | proceed => exact guarded_foreign key other

theorem intercept_fills (request : Request B) (outside : Outside K t s) :
    (provenance K requestFingerprint allowed).rest.Safe t (intercept requestFingerprint request)
      (fun _ s' => (∀ c, allowed c → c.smooth) → Filled K t s') s := by
  by_cases mine : request.key = some K
  · simp only [intercept, mine]
    apply Logic.Safe.bind
    apply Logic.Safe.outcome
    refine (claim_holds outside).mono fun r s' claimed => ?_
    cases r with
    | error error => exact reply_safe _ claimed
    | ok won =>
      cases won with
      | replay status body => exact reply_safe _ claimed
      | proceed => exact guarded_fills mine claimed
  · exact (outside_safe (intercept_foreign mine) outside).mono fun _ _ last _ => last.filled

def Answered (K : String) (allowed : Choice R → Prop) (p : Requests B R)
    (a : Act (Request B) (Choice R) Ext) : Prop :=
  Steady K p a ∧ ∀ t c, a = .step t c → allowed c

theorem provenance_verified (K : String) (allowed : Choice R → Prop) :
    Logic.Verified (provenance (R := R) K requestFingerprint allowed).logic (Answered K allowed)
      (fun t _ _ s => True ∧ ((∀ c, allowed c → c.smooth) → Filled K t s)) := by
  have owned : Logic.Verified
      ((ownership (R := R) K requestFingerprint).under fun _ s e c => Present K s e ∧ allowed c)
      (Answered K allowed) (fun _ _ _ _ => True) :=
    (ownership_verified K).under (fun _ _ _ _ ok => ok.1) (fun _ _ ok => ok.1)
      fun p t c j e k ok live => ⟨ok.1 j e k live, ok.2 t c rfl⟩
  refine Layer.verified owned ?_ ?_ ?_
  · exact fun p t request _ _ fresh => intercept_fills request fresh.2
  · exact fun t j r s inv _ _ => ⟨inv.2, fun t' _ => .refl t' s⟩
  · intro p x s' ok inv st
    cases x with
    | sweep now =>
      cases Option.some.inj st
      have same : (p.shared.sweep now).keys K = p.shared.keys K := keys_sweep ok.1
      constructor
      · intro row hk
        exact inv.2 row (same ▸ hk)
      · exact fun t => ⟨List.prefix_rfl, fun row hk _ => same.trans hk⟩

end Overbook.Idempotency
