import Overbook.Discipline.Assertions
import Overbook.Outbox.Published

/-! A row that a failed publish counts up once too often is given up. As long as no publish fails
for a row that is one attempt short of the limit, every row stays pending until it is sent. -/
namespace Overbook

open Async Prog ReadCommitted Kafka Store

/-- Any crashes and failures, but every publish that fails leaves the rows it was for at least
one attempt below the limit of all relays. -/
def patient (allowed : Job → Prop) (maxAttempts : Int) : Regime where
  allowed j := match j with
    | .drainOnce config _ => maxAttempts ≤ config.maxAttempts
    | j => allowed j
  answers t s e c := match e, c with
    | .sendBatch _, .refused _ => ∀ cell ∈ s.outbox.held t,
        (cell.committed.attempts : Int) + 1 < maxAttempts
    | _, _ => True
  crashes := True

def Spares (t : Tid) (e : Effect) (s : Store) : Prop :=
  match e with
  | .updateOutbox _ patch => s.active t = true → patch.status ≠ some .failed
  | _ => True

variable {allowed : Job → Prop} {maxAttempts : Int} {partition : String → String → Nat}
  {t : Tid} {s s' : Store}

/-- The discipline, and that no mark gives a row up. -/
abbrev patience (allowed : Job → Prop) (maxAttempts : Int) (partition : String → String → Nat) :
    Layer (discipline (patient allowed maxAttempts) partition) :=
  asserting (patient allowed maxAttempts) partition Spares

def Effect.marks : Effect → Prop
  | .updateOutbox .. => True
  | _ => False

theorem quiet_safe {α : Type} {p : Service α} (only : p.Only fun e => ¬ e.marks) :
    (patience allowed maxAttempts partition).rest.Safe t p (fun _ _ => True) s := by
  refine asserting_quiet (fun t e s silent => ?_) only
  cases e with
  | updateOutbox => exact absurd trivial silent
  | _ => trivial

/-- Rows that are below the limit are put off, not given up. -/
theorem markFailed_spares {config : OutboxConfig} {error : Err} {rows : List OutboxRow}
    (limit : maxAttempts ≤ config.maxAttempts)
    (below : s.active t = true → ∀ r ∈ rows, (r.attempts : Int) + 1 < maxAttempts) :
    (patience allowed maxAttempts partition).rest.Safe t
      (markFailed config.maxAttempts error rows) (fun _ _ => True) s := by
  induction rows generalizing s with
  | nil => trivial
  | cons row rows ih =>
    have steady : ∀ {s s'}, (s.active t = true → ∀ r ∈ row :: rows, (r.attempts : Int) + 1 < maxAttempts) →
        (patience allowed maxAttempts partition).logic.Frame t s s' →
        s'.active t = true → ∀ r ∈ row :: rows, (r.attempts : Int) + 1 < maxAttempts := by
      intro s s' h f act
      exact h ((active_congr (f.1.frame.tx act)).symm.trans act)
    unfold markFailed
    apply Logic.Safe.bind
    refine Layer.await_safe fun s₁ f₁ _ => ⟨trivial, fun c s₂ r _ _ he _ => ?_⟩
    cases r with
    | error x => trivial
    | ok now =>
      cases dateNow_ok he
      apply Logic.Safe.bind
      refine Layer.await_safe fun s₃ f₃ _ => ⟨fun act => ?_, fun c s₄ r _ _ he _ => ?_⟩
      · have less := steady (steady below f₁) f₃ act row (List.mem_cons_self ..)
        have under : (row.attempts : Int) + 1 < config.maxAttempts := by omega
        simpa [failedPatch] using under
      · cases r with
        | error x => trivial
        | ok u =>
          obtain ⟨act, -, -⟩ := updateOutbox_ok he
          have now := steady (steady below f₁) f₃ act
          exact ih fun _ r hr => now r (List.mem_cons_of_mem row hr)

theorem drainBatch_spares {config : OutboxConfig} (limit : maxAttempts ≤ config.maxAttempts)
    (clean : s.active t = true → Clean t s) :
    (patience allowed maxAttempts partition).rest.Safe t (drainBatch config) (fun _ _ => True) s := by
  have owns_later : ∀ {rows s s'}, (s.active t = true → Owns t [] [] none rows s) →
      (patience allowed maxAttempts partition).logic.Frame t s s' →
      s'.active t = true → Owns t [] [] none rows s' := by
    intro rows s s' h f act
    have was : s.active t = true := (active_congr (f.1.frame.tx act)).symm.trans act
    exact owns_stable s s' (h was) f.1.frame act
  unfold drainBatch
  apply Logic.Safe.bind
  refine Layer.await_safe fun s₁ f₁ _ => ⟨trivial, fun c s₂ r _ _ he _ => ?_⟩
  cases r with
  | error x => trivial
  | ok rows =>
    obtain ⟨rfl, act, sel, rfl⟩ := selectPending_ok he
    have owns := (owns_later clean f₁ act).select sel
    cases rows with
    | nil => exact quiet_safe (by simp [refreshPendingGauge, only_bind, Effect.marks])
    | cons row rest =>
      apply Logic.Safe.bind
      apply Logic.Safe.outcome
      have failed : ∀ error s, (s.active t = true →
          ∀ r ∈ row :: rest, (r.attempts : Int) + 1 < maxAttempts) →
          (patience allowed maxAttempts partition).rest.Safe t
            (do markFailed config.maxAttempts error (row :: rest); pure 0 : Service Nat)
            (fun _ _ => True) s := by
        intro error s below
        apply Logic.Safe.bind
        exact (markFailed_spares limit below).mono fun r _ _ => by cases r <;> trivial
      have marked : ∀ s, (patience allowed maxAttempts partition).rest.Safe t
          (do
            ask (.updateOutbox ((row :: rest).map (·.id)) publishedPatch)
            refreshPendingGauge
            pure (row :: rest).length : Service Nat) (fun _ _ => True) s := by
        intro s
        apply Logic.Safe.bind
        refine Layer.await_safe fun s₁ _ _ => ⟨fun _ => by simp [publishedPatch], ?_⟩
        intro c s₂ r _ _ _ _
        cases r with
        | error x => trivial
        | ok u => exact quiet_safe (by simp [refreshPendingGauge, only_bind, Effect.marks])
      unfold publishBatch
      split
      · exact marked _
      · refine Layer.await_safe fun s₃ f₃ _ => ⟨trivial, fun c s₄ r ok _ he _ => ?_⟩
        have owns₃ := owns_later (fun _ => owns) f₃
        obtain ⟨rfl, rfl, -⟩ | ⟨parts, rfl, rfl, rfl⟩ := sendBatch_cases he
        · exact marked _
        · refine failed _ _ fun act r hr => ?_
          obtain ⟨cell, held, rfl⟩ := (owns₃ act).picked r hr
          exact ok cell held

theorem spares_routine (t : Tid) (e : Effect) (s : Store) (h : e.routine) : Spares t e s := by
  cases e with
  | updateOutbox => exact h.elim
  | _ => trivial

theorem book_marks_nothing (config : AppConfiguration) (eventId : Uuid) (dto : CreateBookingDto)
    (context : BookingContext) : (book config eventId dto context).Only fun e => ¬ e.marks := by
  refine book_only (only_mono (fun e he => ?_) bookInTransaction_books) fun e he => ?_
  · cases e <;> first | exact id | exact he.elim
  · cases e <;> first | exact id | exact he.elim

theorem patience_verified :
    Logic.Verified (patience allowed maxAttempts partition).logic
      (patient allowed maxAttempts).Ok (fun _ _ _ _ => True ∧ True) := by
  refine asserting_verified fun t j s ok => ?_
  cases j with
  | create dto => exact quiet_safe (only_bind (by simp [create, Effect.marks]) fun _ => trivial)
  | book config eventId dto context =>
    exact quiet_safe (only_bind (book_marks_nothing config eventId dto context) fun _ => trivial)
  | integrity eventId =>
    refine quiet_safe (only_bind (only_mono (fun e he => ?_) integrity_neutral) fun _ => trivial)
    cases e <;> first | exact id | exact he.elim
  | drainOnce config replica =>
    apply Logic.Safe.bind
    refine (asserting_drain spares_routine fun s => drainBatch_spares ok).mono fun r s _ => ?_
    cases r <;> trivial

def NoneFailed (s : Store) : Prop := s.outbox.Throughout fun r => r.status ≠ .failed

theorem noneFailed_step {e : Effect} {c : Choice} (here : At (patient allowed maxAttempts) t e s)
    (spares : Spares t e s) (h : NoneFailed s) (touch : Touch t s e c s') : NoneFailed s' := by
  have release : NoneFailed (s.abort t) := by
    unfold abort
    split
    · exact h.rollback t
    · exact h
  cases touch with
  | rest s' _ _ outbox => rw [NoneFailed, outbox]; exact h
  | committed act =>
    refine (h.commit t).insert fun r hr => ?_
    rw [ready_added (here act) r hr]
    decide
  | aborted => exact release
  | rolledBack => exact release
  | selected limit rows => exact h.write t _ fun _ hv => hv
  | updated ids patch act =>
    refine h.write t _ fun r hr => ?_
    have marked := spares act
    cases new : patch.status with
    | none => simpa [OutboxPatch.apply, new] using hr
    | some status =>
      rw [new] at marked
      simpa [OutboxPatch.apply, new] using fun eq => marked (congrArg some eq)
  | _ => exact h

theorem none_failed {p : ApiPool}
    (run : (api partition).Reach (patient allowed maxAttempts).Ok migrated p) :
    NoneFailed p.shared := by
  have start : Logic.Sound (patience allowed maxAttempts partition).logic (fun _ _ _ _ => True ∧ True)
      migrated :=
    Logic.initial_sound (L := (patience allowed maxAttempts partition).logic)
      ⟨empty_consistent, trivial⟩ fun _ => ⟨⟨rfl, fun _ h => nomatch h⟩, trivial⟩
  refine Logic.reach_invariant patience_verified start run (fun _ h => nomatch h) ?_
    (fun _ _ _ _ _ _ h => h) ?_
  · intro t s e c s' r _ here _ h he _
    exact noneFailed_step here.1 here.2 h (exec_touch he)
  · intro q x s' _ _ h hx
    cases x with
    | tick d => cases Option.some.inj hx; exact h
    | abortTx t =>
      cases Option.some.inj hx
      unfold NoneFailed abort
      split
      · exact h.rollback t
      · exact h

end Overbook
