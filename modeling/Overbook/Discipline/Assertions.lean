import Overbook.Async.Layer
import Overbook.Bookings.Seats

/-! Results about single statements. A layer that asserts something of a few statements has nothing
to prove where a program only begins, ends and reads. -/
namespace Overbook

open Async Prog ReadCommitted Store

variable {α : Type} {partition : String → String → Nat} {t : Tid} {s s' : Store}

def asserting (R : Regime) (partition : String → String → Nat)
    (Here : Tid → Effect → Store → Prop) : Layer (discipline R partition) where
  Inv _ := True
  Frame _ _ _ := True
  Fresh _ _ := True
  Here := Here
  refl _ _ := trivial
  trans _ _ _ _ _ _ := trivial
  fresh _ _ _ _ _ _ := trivial
  keeps _ _ _ _ _ _ inv _ here _ _ he := ⟨exec_keeps inv here he, trivial, fun _ _ => trivial⟩

variable {R : Regime} {Here : Tid → Effect → Store → Prop}

theorem asserting_quiet {quiet : Effect → Prop} (silent : ∀ t e s, quiet e → Here t e s)
    {p : Service α} (only : p.Only quiet) :
    (asserting R partition Here).rest.Safe t p (fun _ _ => True) s :=
  Layer.only_safe (J := fun _ => True) only (fun _ _ _ _ _ => trivial)
    (fun e he s _ => silent t e s he) (fun _ _ _ _ _ _ _ _ _ _ _ => trivial) trivial

def Effect.routine : Effect → Prop
  | .insertOutbox _ => False
  | .updateOutbox .. => False
  | _ => True

variable (silent : ∀ t e s, Effect.routine e → Here t e s)
include silent

/-- The rule for a transaction. -/
theorem asserting_transaction {run : Service α}
    (body : ∀ s, (s.active t = true → Clean t s) →
      (asserting R partition Here).rest.Safe t run (fun _ _ => True) s) :
    (asserting R partition Here).rest.Safe t (transaction run) (fun _ _ => True) s := by
  have whole : (asserting R partition Here).rest.Safe t
      (do ask .beginTx; let result ← run; ask .commitTx; pure result : Service α)
      (fun _ _ => True) s := by
    apply Logic.Safe.bind
    refine Layer.await_safe fun s₁ _ inv => ⟨silent _ _ _ trivial, fun c s₂ r _ _ he _ => ?_⟩
    cases r with
    | error x => trivial
    | ok u =>
      apply Logic.Safe.bind
      refine (body s₂ fun _ => (begin_clean inv.1.wf he).2).mono fun r s₃ _ => ?_
      cases r with
      | error x => trivial
      | ok a => exact asserting_quiet silent (by simp [only_bind, Effect.routine])
  unfold transaction
  apply Logic.Safe.handle
  refine whole.mono fun r s₁ _ => ?_
  cases r with
  | ok a => trivial
  | error x =>
    refine asserting_quiet silent (only_bind (only_handle ?_ fun _ => trivial) fun _ => trivial)
    simp [Effect.routine]

/-- The rule for a drain. -/
theorem asserting_drain {config : OutboxConfig} {replica : Replica}
    (batch : ∀ s, (s.active t = true → Clean t s) →
      (asserting R partition Here).rest.Safe t (drainBatch config) (fun _ _ => True) s) :
    (asserting R partition Here).rest.Safe t (drainOnce config replica) (fun _ _ => True) s := by
  unfold drainOnce
  apply Logic.Safe.bind
  refine Layer.await_safe fun s₁ _ _ => ⟨silent _ _ _ trivial, fun c s₂ r _ _ _ _ => ?_⟩
  cases r with
  | error x => trivial
  | ok running =>
    cases running with
    | true => trivial
    | false =>
      apply Logic.Safe.ensure
      refine (asserting_transaction silent batch).mono fun r s₃ _ => ?_
      have last : (asserting R partition Here).rest.Safe t (ask (.leaveDrain replica))
          (fun _ _ => True) s₃ := asserting_quiet silent (by simp [Effect.routine])
      exact last.mono fun u s₄ _ => by cases u <;> trivial

omit silent

/-- The layer is verified once the programs are that the assertions are about. -/
theorem asserting_verified
    (code : ∀ t j s, R.allowed j →
      (asserting R partition Here).rest.Safe t j.code (fun _ _ => True) s) :
    Logic.Verified (asserting R partition Here).logic R.Ok (fun _ _ _ _ => True ∧ True) :=
  Layer.verified (Q := fun _ _ _ _ => True) (api_verified _ partition)
    (fun p t j ok _ _ => code t j p.shared ok)
    (fun _ _ _ _ _ _ _ => ⟨trivial, fun _ _ => trivial⟩)
    (fun _ _ _ _ _ _ => ⟨trivial, fun _ => trivial⟩)

end Overbook
