import Overbook.Idempotency.Interceptor

/-! A row lives for `ttl`: no sweep removes it within 24 hours of the first request. -/
namespace Overbook.Idempotency

open Async Prog

variable {B R : Type} {requestFingerprint : String → String → B → String}
variable {t : Tid} {s s' : KeyStore B R} {c : Choice R}

def Unswept (K : String) (s : KeyStore B R) (now : Time) : Prop :=
  ∀ row, s.keys K = some row → ¬ row.expiresAt < now

theorem keys_sweep {K : String} {now : Time} (unswept : Unswept K s now) : (s.sweep now).keys K = s.keys K := by
  cases hk : s.keys K with
  | none => simp [KeyStore.sweep, hk]
  | some row => simp [KeyStore.sweep, hk, Option.filter, unswept row hk]

def Lasts (limit : Time) (s : KeyStore B R) : Prop :=
  ∀ key row, s.keys key = some row → limit ≤ row.expiresAt

def InsertsLasting (limit : Time) : Effect B R → Prop
  | .insertKey _ row => limit ≤ row.expiresAt
  | _ => True

theorem lasts_put {limit : Time} {key : String} {row : Option (Claimed R)} (h : Lasts limit s)
    (new : ∀ r, row = some r → limit ≤ r.expiresAt) : Lasts limit (s.put key row) := by
  intro key' r hr
  rcases eq_or_ne key' key with rfl | ne
  · exact new r (s.put_self key' row ▸ hr)
  · exact h key' r (s.put_of_ne ne row ▸ hr)

theorem moves_last {limit : Time} {e : Effect B R} (h : Lasts limit s)
    (here : InsertsLasting limit e) (moves : Moves t s e s') : Lasts limit s' := by
  cases moves with
  | same => exact h
  | booked => exact h
  | answered => exact h
  | deleted key => exact lasts_put h nofun
  | inserted key row =>
    unfold KeyStore.insertKey
    split
    · exact h
    · apply lasts_put h
      rintro r ⟨⟩
      exact here
  | updated key status body =>
    apply lasts_put h
    intro r hr
    obtain ⟨row, hk, rfl⟩ := Option.map_eq_some_iff.mp hr
    exact h key row hk

def lifetimes (requestFingerprint : String → String → B → String) (start : Time) :
    Logic (interceptor R requestFingerprint) where
  Inv := Lasts (start + ttl)
  Frame _ _ _ := True
  Fresh _ _ := True
  Here _ e _ := InsertsLasting (start + ttl) e
  Ok _ _ _ c := ∀ now, c = .time now → start ≤ now
  refl _ _ := trivial
  trans _ _ _ _ _ _ := trivial
  fresh _ _ _ _ _ := trivial

theorem lasting_safe {α : Type} {start : Time} {p : Handler B R α}
    (only : p.Only (InsertsLasting (start + ttl))) :
    (lifetimes requestFingerprint start).Safe t p (fun _ _ => True) s := by
  refine Logic.Safe.of_only (J := fun _ => True) only (fun _ _ h _ _ => h) ?_ trivial
  intro e here s lasts _
  constructor
  · exact here
  · intro c s' r _ he
    exact ⟨⟨moves_last lasts here (exec_moves he), fun _ _ => trivial⟩, trivial⟩

theorem ask_lasting {limit : Time} {e : Effect B R} (h : InsertsLasting limit e) :
    (ask e).Only (InsertsLasting limit) := (only_await e).mpr h

theorem guarded_lasting (limit : Time) (key : String) (request : Request B) :
    (guarded (R := R) key request).Only (InsertsLasting limit) := by
  apply only_bind (only_outcome (ask_lasting (by trivial)))
  intro r
  cases r with
  | ok result =>
    apply only_bind (ask_lasting (by trivial))
    exact fun _ => only_handle (ask_lasting (by trivial)) fun _ => trivial
  | error error =>
    apply only_bind (ask_lasting (by trivial))
    exact fun _ => only_handle (ask_lasting (by trivial)) fun _ => trivial

theorem afterClaim_lasting (limit : Time) (key : String) (request : Request B)
    (r : Except Err (Claim R)) : (afterClaim key request r).Only (InsertsLasting limit) := by
  match r with
  | .error error => exact ask_lasting (by trivial)
  | .ok (.replay status body) => exact ask_lasting (by trivial)
  | .ok .proceed => exact guarded_lasting limit key request

theorem claim_lasting (start : Time) (key endpoint fingerprint : String) :
    (lifetimes (R := R) requestFingerprint start).Safe t (claim key endpoint fingerprint)
      (fun _ _ => True) s := by
  apply Logic.Safe.bind
  apply Logic.Safe.await
  intro s₁ _ lasts
  constructor
  · trivial
  · intro c s₂ r late he
    constructor
    · cases exec_moves he
      exact ⟨lasts, fun _ _ => trivial⟩
    · cases r with
      | error x => trivial
      | ok now =>
        have read : start ≤ now := by
          cases c <;> cases he
          exact late now rfl
        have lasting : start + ttl ≤ now + ttl := Nat.add_le_add_right read ttl
        apply lasting_safe
        refine only_bind (ask_lasting lasting) fun won => ?_
        cases won with
        | true => trivial
        | false => exact only_bind (ask_lasting (by trivial)) fun _ => only_ofExcept _

theorem intercept_lasting (start : Time) (request : Request B) :
    (lifetimes requestFingerprint start).Safe t (intercept (R := R) requestFingerprint request)
      (fun _ _ => True) s := by
  unfold intercept
  split
  · apply lasting_safe
    apply only_bind (only_outcome (ask_lasting (by trivial)))
    exact fun _ => ask_lasting (by trivial)
  · apply Logic.Safe.bind
    apply Logic.Safe.outcome
    apply (claim_lasting start _ _ _).mono
    exact fun r s' _ => lasting_safe (afterClaim_lasting _ _ request r)

def Since (start : Time) (_ : Requests B R) : Act (Request B) (Choice R) Ext → Prop
  | .step _ c => ∀ now, c = .time now → start ≤ now
  | _ => True

/-- A sweep of the first 24 hours finds nothing to remove. -/
theorem unswept_for_a_day {start now : Time} {p : Requests B R}
    (run : (interceptor R requestFingerprint).Reach (Since start) noKeys p)
    (early : now ≤ start + ttl) (K : String) : Unswept K p.shared now := by
  have verified : Logic.Verified (lifetimes (R := R) requestFingerprint start) (Since start)
      (fun _ _ _ _ => True) :=
    { allowed := fun p t c j e k ok _ => ok
      code := fun p t request _ _ _ _ => intercept_lasting start request
      finish := fun t j r s lasts _ => ⟨lasts, fun _ _ => trivial⟩
      ext := by
        rintro p ⟨now⟩ s' _ lasts st
        cases Option.some.inj st
        refine ⟨fun key row hk => ?_, fun _ => trivial⟩
        exact lasts key row (Option.filter_eq_some_iff.mp hk).1 }
  have start : Logic.Sound (lifetimes (R := R) requestFingerprint start) (fun _ _ _ _ => True)
      noKeys := Logic.initial_sound (fun _ _ hk => nomatch hk) fun _ => trivial
  have sound := Logic.reach_sound verified start run
  intro row hk
  exact Nat.not_lt.mpr (Nat.le_trans early (sound.inv K row hk))

end Overbook.Idempotency
