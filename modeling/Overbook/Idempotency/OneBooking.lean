import Overbook.OneUse
import Overbook.Idempotency.Lifetime

/-! One key books at most once, as long as no claim finds the row of its key gone. -/
namespace Overbook.Idempotency

open Async Prog OneUse

variable {B R : Type} {requestFingerprint : String → String → B → String}

def bookedFor (K : String) (s : KeyStore B R) : List Tid :=
  (s.booked.filter fun b => b.request.key == some K).map (·.owner)

/-- The right to book under `K`: the owner of its row holds it, a booking uses it. -/
def rightOn (K : String) (s : KeyStore B R) : Right :=
  ⟨(s.keys K).map (·.owner), bookedFor K s⟩

variable {K : String} {t : Tid} {s s' : KeyStore B R} {c : Choice R}

theorem rightOn_put {key : String} (ne : key ≠ K) (s : KeyStore B R) (row : Option (Claimed R)) :
    rightOn K (s.put key row) = rightOn K s := by
  rw [rightOn, s.put_of_ne ne.symm]
  rfl

theorem rightOn_insert (t : Tid) (s : KeyStore B R) (row : IdempotencyKey R) :
    rightOn K (s.insertKey t K row) =
      if (s.keys K).isSome then rightOn K s else ⟨some t, bookedFor K s⟩ := by
  unfold KeyStore.insertKey
  split
  · rfl
  · rw [rightOn, s.put_self]
    rfl

theorem rightOn_update (s : KeyStore B R) (key : String) (status : Nat) (body : R) :
    rightOn K (s.updateKey key status body) = rightOn K s := by
  rcases eq_or_ne key K with rfl | ne
  · rw [rightOn, KeyStore.updateKey, s.put_self, Option.map_map]
    rfl
  · exact rightOn_put ne s _

theorem rightOn_append (b : Booked B R) :
    rightOn K { s with booked := s.booked ++ [b] } =
      if b.request.key = some K then ⟨(rightOn K s).holder, (rightOn K s).users ++ [b.owner]⟩
      else rightOn K s := by
  unfold rightOn bookedFor
  split <;> rename_i key <;> simp [key]

/-- What request `t` asserts where it waits: it runs the handler, or gives the key up, only
while it may book under it. -/
def Asserts (K : String) (t : Tid) (s : KeyStore B R) : Effect B R → Prop
  | .handle request => request.key = some K → (rightOn K s).MayUse t
  | .deleteKey key => key = K → (rightOn K s).MayUse t
  | _ => True

/- The read of a losing claim finds the row of `K` that it lost to. -/
def Present (K : String) (s : KeyStore B R) (e : Effect B R) : Prop :=
  e = .findKey K → (s.keys K).isSome = true

def ownership (K : String) (requestFingerprint : String → String → B → String) :
    Logic (interceptor R requestFingerprint) where
  Inv s := (rightOn K s).Once
  Frame t s s' := (rightOn K s).Undisturbed t (rightOn K s')
  Fresh t s := t ∉ (rightOn K s).users
  Here t e s := Asserts K t s e
  Ok _ s e _ := Present K s e
  refl t _ := .refl t _
  trans _ _ _ _ h h' := h.trans h'
  fresh _ _ _ h u := fun used => h (u.users.mp used)

theorem moves_right {e : Effect B R} (here : Asserts K t s e) (moves : Moves t s e s') :
    (rightOn K s).Step t (rightOn K s') := by
  cases moves with
  | same => exact .same _
  | answered => exact .same _
  | updated key status body =>
    rw [rightOn_update]
    exact .same _
  | inserted key row =>
    rcases eq_or_ne key K with rfl | ne
    · rw [rightOn_insert]
      split
      · exact .same _
      · rename_i free
        have none : s.keys key = none := by simpa using free
        rw [rightOn, none]
        exact .take _
    · have same : rightOn K (s.insertKey t key row) = rightOn K s := by
        unfold KeyStore.insertKey
        split
        · rfl
        · exact rightOn_put ne s _
      rw [same]
      exact .same _
  | booked request status body =>
    rw [rightOn_append]
    split
    · rename_i key
      exact .use (here key)
    · exact .same _
  | deleted key =>
    rcases eq_or_ne key K with rfl | ne
    · have gone : rightOn key (s.put key none) = ⟨none, bookedFor key s⟩ := by
        rw [rightOn, s.put_self]
        rfl
      rw [gone]
      exact .giveUp (here rfl)
    · rw [rightOn_put ne]
      exact .same _

/- One effect in a request: what is asserted there, and what holds after each answer. -/
theorem ask_safe {e : Effect B R} {Q : Except Err e.Answer → KeyStore B R → Prop}
    (here : ∀ s₁, (rightOn K s).Undisturbed t (rightOn K s₁) → Asserts K t s₁ e)
    (next : ∀ s₁ c s₂ r, (rightOn K s).Undisturbed t (rightOn K s₁) → Present K s₁ e →
      exec t s₁ e c = some (s₂, r) → Q r s₂) :
    (ownership K requestFingerprint).Safe t (ask e) Q s := by
  apply Logic.Safe.await
  intro s₁ frame once
  constructor
  · exact here s₁ frame
  · intro c s₂ r present he
    have step := moves_right (here s₁ frame) (exec_moves he)
    exact ⟨⟨step.once once, fun _ other => step.undisturbed other⟩,
      next s₁ c s₂ r frame present he⟩

def Harmless : Effect B R → Prop
  | .handle _ => False
  | .deleteKey _ => False
  | _ => True

theorem harmless_safe {p : Handler B R Unit} (only : p.Only Harmless) :
    (ownership K requestFingerprint).Safe t p (fun _ _ => True) s := by
  refine Logic.Safe.of_only (J := fun _ => True) only (fun _ _ h _ _ => h) ?_ trivial
  intro e harmless s once _
  have here : Asserts K t s e := by
    cases e with
    | handle _ => exact harmless.elim
    | deleteKey _ => exact harmless.elim
    | _ => trivial
  constructor
  · exact here
  · intro c s' r _ he
    have step := moves_right here (exec_moves he)
    exact ⟨⟨step.once once, fun _ other => step.undisturbed other⟩, trivial⟩

theorem complete_harmless (key : String) (status : Nat) (body : R) :
    (complete (B := B) key status body).Only Harmless :=
  only_handle ((only_await _).mpr trivial) fun _ => trivial

theorem answer_harmless (reply : Except Err (Reply R)) : (answer (B := B) reply).Only Harmless :=
  (only_await _).mpr trivial

theorem release_safe {key : String} (may : key = K → (rightOn K s).MayUse t) :
    (ownership K requestFingerprint).Safe t (release key) (fun _ _ => True) s := by
  apply Logic.Safe.handle
  apply ask_safe
  · intro s₁ frame same
    exact (may same).undisturbed frame
  · intro s₁ c s₂ r _ _ _
    cases r <;> trivial

theorem guarded_safe {key : String} {request : Request B} (own : request.key = some key)
    (may : key = K → (rightOn K s).MayUse t) :
    (ownership K requestFingerprint).Safe t (guarded key request) (fun _ _ => True) s := by
  apply Logic.Safe.bind
  apply Logic.Safe.outcome
  apply ask_safe
  · intro s₁ frame same
    exact (may (Option.some.inj (own.symm.trans same))).undisturbed frame
  · intro s₁ c s₂ r frame _ he
    cases r with
    | ok result =>
      apply harmless_safe
      exact only_bind (answer_harmless _) fun _ => complete_harmless ..
    | error error =>
      -- nothing is committed, so the key may still be booked under
      have same : s₂ = s₁ := threw_same he
      subst same
      apply Logic.Safe.bind
      apply ask_safe
      · exact fun _ _ => trivial
      · intro s₃ c s₄ r frame' _ he
        cases r with
        | error _ => trivial
        | ok _ =>
          apply release_safe
          intro key
          have held := ((may key).undisturbed frame).undisturbed frame'
          cases exec_moves he with
          | same => exact held
          | answered => exact held

theorem onExisting_stops (fingerprint : String) (existing : IdempotencyKey R) :
    onExisting fingerprint (some existing) ≠ .ok .proceed := by
  by_cases other : existing.requestHash ≠ fingerprint
  · simp [onExisting, other]
  · cases status : existing.status <;> cases code : existing.responseStatus <;>
      simp [onExisting, other, status, code]

theorem losing_safe (key fingerprint : String) :
    (ownership K requestFingerprint).Safe t
      (do Prog.ofExcept (onExisting fingerprint (← ask (B := B) (.findKey key))))
      (fun r _ => key = K → r ≠ .ok .proceed) s := by
  apply Logic.Safe.bind
  apply ask_safe
  · exact fun _ _ => trivial
  · intro s₁ c s₂ r _ present he
    cases r with
    | error _ => exact fun _ => nofun
    | ok row =>
      have stops : key = K → onExisting fingerprint row ≠ .ok .proceed := by
        rintro rfl
        have there := present rfl
        rw [found_ok he]
        cases hk : s₁.keys key with
        | none => simp [hk] at there
        | some existing => exact onExisting_stops fingerprint existing.toIdempotencyKey
      dsimp only
      cases hr : onExisting fingerprint row with
      | error x => exact fun _ => nofun
      | ok claim =>
        intro same proceeds
        have claimed : claim = .proceed := Except.ok.inj proceeds
        exact stops same (by rw [hr, claimed])

theorem claim_safe {key endpoint fingerprint : String} (unbooked : t ∉ (rightOn K s).users) :
    (ownership K requestFingerprint).Safe t (claim (B := B) key endpoint fingerprint)
      (fun r s' => r = .ok .proceed → key = K → (rightOn K s').MayUse t) s := by
  apply Logic.Safe.bind
  apply ask_safe
  · exact fun _ _ => trivial
  · intro s₁ c s₂ r frame _ he
    have still : t ∉ (rightOn K s₂).users := by
      cases exec_moves he
      exact fun used => unbooked (frame.users.mp used)
    cases r with
    | error _ => exact nofun
    | ok now =>
      apply Logic.Safe.bind
      apply ask_safe
      · exact fun _ _ => trivial
      · intro s₃ c s₄ r frame _ he
        cases r with
        | error _ => exact nofun
        | ok won =>
          obtain ⟨rfl, rfl⟩ := inserted_ok he
          dsimp only
          split
          · rename_i won
            rintro - rfl
            have free : (s₃.keys key).isSome = false := by simpa using won
            rw [rightOn_insert, free]
            exact ⟨rfl, fun used => still (frame.users.mp used)⟩
          · refine (losing_safe key fingerprint).mono ?_
            intro r s' stops proceeds same
            exact absurd proceeds (stops same)

theorem intercept_safe (request : Request B) (unbooked : t ∉ (rightOn K s).users) :
    (ownership K requestFingerprint).Safe t (intercept requestFingerprint request)
      (fun _ _ => True) s := by
  cases key : request.key with
  | none =>
    simp only [intercept, key]
    apply Logic.Safe.bind
    apply Logic.Safe.outcome
    apply ask_safe
    · intro _ _ same
      exact nomatch key.symm.trans same
    · intro s₁ c s₂ r _ _ _
      exact harmless_safe (answer_harmless _)
  | some key' =>
    simp only [intercept, key]
    apply Logic.Safe.bind
    apply Logic.Safe.outcome
    refine (claim_safe unbooked).mono ?_
    intro r s' claimed
    match r with
    | .error error => exact harmless_safe (answer_harmless _)
    | .ok (.replay status body) => exact harmless_safe (answer_harmless _)
    | .ok .proceed => exact guarded_safe key (claimed rfl)

/-- The actions of a run in which no sweep removes the row of `K`, as none does within 24 hours,
and no claim on `K` reads after the row it lost to is gone. -/
def Steady (K : String) (p : Requests B R) : Act (Request B) (Choice R) Ext → Prop
  | .step t _ => ∀ j e k, p.slot t = .live j e k → Present K p.shared e
  | .env (.sweep now) => Unswept K p.shared now
  | _ => True

theorem ownership_verified (K : String) : Logic.Verified (ownership (R := R) K requestFingerprint)
    (Steady K) (fun _ _ _ _ => True) where
  allowed p t c j e k ok live := ok j e k live
  code p t request _ _ _ unbooked := intercept_safe request unbooked
  finish t j r s once _ := ⟨once, fun t' _ => .refl t' _⟩
  ext p x s' ok once st := by
    cases x with
    | sweep now =>
      cases Option.some.inj st
      have same : rightOn K (p.shared.sweep now) = rightOn K p.shared := by
        rw [rightOn, keys_sweep ok]
        rfl
      have frame : ∀ t, (rightOn K p.shared).Undisturbed t (rightOn K (p.shared.sweep now)) := by
        intro t
        rw [same]
        exact .refl t _
      have still : (rightOn K (p.shared.sweep now)).Once := by
        rw [same]
        exact once
      exact ⟨still, frame⟩

/-- At most one booking is ever committed for a key. -/
theorem one_booking_per_key (requestFingerprint : String → String → B → String) (K : String)
    (p : Requests B R) (run : (interceptor R requestFingerprint).Reach (Steady K) noKeys p) :
    (bookedFor K p.shared).length ≤ 1 := by
  have start : Logic.Sound (ownership K requestFingerprint) (fun _ _ _ _ => True)
      (noKeys : Requests B R) := Logic.initial_sound (.inl rfl) fun t => List.not_mem_nil
  exact (Logic.reach_sound (ownership_verified K) start run).inv.length_le_one

def steadyCheck (K : String) (p : Requests B R) : Act (Request B) (Choice R) Ext → Bool
  | .step t _ =>
    match p.slot t with
    | .live _ (.findKey key) _ => key != K || (p.shared.keys K).isSome
    | _ => true
  | .env _ => false
  | _ => true

theorem steady_of_check {p : Requests B R} {a : Act (Request B) (Choice R) Ext}
    (h : steadyCheck K p a = true) : Steady K p a := by
  cases a with
  | start t j => trivial
  | kill t => trivial
  | env x => cases h
  | step t c =>
    rintro j e k live rfl
    simpa [steadyCheck, live] using h

def click : Request Unit :=
  { idempotencyKey := some "c1", method := "POST", path := "/v1/events/e/bookings"
    originalUrl := "/v1/events/e/bookings", body := () }

def methodAndUrl (method url : String) (_ : Unit) : String := s!"{method} {url}"

/- The second send of the click is answered by a replay. -/
def retried : List (Act (Request Unit) (Choice Unit) Ext) :=
  [.start 1 click, .step 1 (.time 0), .step 1 .ok, .step 1 (.booked 201 ()), .step 1 .ok,
    .step 1 .ok,
    .start 2 click, .step 2 (.time 1), .step 2 .ok, .step 2 .ok, .step 2 .ok]

theorem one_booking_per_key_retried : ∃ p : Requests Unit Unit,
    p.shared.answers.map (·.2.toOption) =
        [some ⟨201, some (), false⟩, some ⟨201, some (), true⟩] ∧
      (bookedFor "c1" p.shared).length ≤ 1 := by
  have replay : (((interceptor Unit methodAndUrl).runChecked (steadyCheck "c1") noKeys
      retried).map fun p => p.shared.answers.map (·.2.toOption)) =
        some [some ⟨201, some (), false⟩, some ⟨201, some (), true⟩] := by decide +kernel
  obtain ⟨p, hp, answers⟩ := Option.map_eq_some_iff.mp replay
  have run := Machine.Reach.of_checked hp fun a _ q => steady_of_check (p := q) (a := a)
  exact ⟨p, answers, one_booking_per_key methodAndUrl "c1" p run⟩

/-! Three sends of one click. The second loses the insert to the first, whose handler then
fails; the second reads after the release, and the third has nothing to lose to. -/

/- Every request is the same click, and no sweep removes the row of its key. -/
def SameClick (p : Requests Unit Unit) : Act (Request Unit) (Choice Unit) Ext → Prop
  | .start _ request => request = click
  | .env (.sweep now) => Unswept "c1" p.shared now
  | _ => True

def releasedTooSoon : List (Act (Request Unit) (Choice Unit) Ext) :=
  [.start 1 click, .step 1 (.time 0), .step 1 .ok,
    .start 2 click, .step 2 (.time 1), .step 2 .ok,
    .step 1 (.threw (.conflict "Too much contention on this event, please retry")),
    .step 1 .ok, .step 1 .ok,
    .step 2 .ok,
    .start 3 click, .step 3 (.time 2), .step 3 .ok,
    .step 2 (.booked 201 ()), .step 3 (.booked 201 ())]

theorem one_click_books_twice : ∃ p : Requests Unit Unit,
    (interceptor Unit methodAndUrl).Reach SameClick noKeys p ∧
      bookedFor "c1" p.shared = [2, 3] := by
  have replay : (((interceptor Unit methodAndUrl).run noKeys releasedTooSoon).map fun p =>
      bookedFor "c1" p.shared) = some [2, 3] := by decide +kernel
  obtain ⟨p, hp, twice⟩ := Option.map_eq_some_iff.mp replay
  refine ⟨p, .of_run hp ?_, twice⟩
  intro a ha q
  cases a with
  | start t request =>
    simp only [releasedTooSoon, List.mem_cons, Act.start.injEq, reduceCtorEq, List.not_mem_nil,
      or_false, false_or] at ha
    rcases ha with ⟨-, rfl⟩ | ⟨-, rfl⟩ | ⟨-, rfl⟩ <;> rfl
  | env x => simp [releasedTooSoon] at ha
  | step t c => trivial
  | kill t => trivial

end Overbook.Idempotency
