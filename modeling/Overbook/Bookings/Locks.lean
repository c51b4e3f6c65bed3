import Overbook.Async.History
import Overbook.Bookings.Verdicts

/-! Which rows of `events` a call locks: a book call that of its own event, the others none. -/
namespace Overbook

open Async Prog ReadCommitted Kafka Store

def Effect.locks : Effect → Option Uuid
  | .findEventForUpdate id => some id
  | .updateEvent id .. => some id
  | _ => none

def Job.event : Job → Option Uuid
  | .book _ eventId .. => some eventId
  | _ => none

variable {partition : String → String → Nat} {eventId id : Uuid} {t t' : Tid} {s s' : Store}
  {p : ApiPool} {Ok : ApiPool → Act Job Choice Ext → Prop}

theorem locks_none {α : Type} {P : Effect → Prop} {p : Service α} {event : Option Uuid}
    (only : p.Only P) (quiet : ∀ e, P e → e.locks = none) :
    p.Only fun e => ∀ id, e.locks = some id → event = some id := by
  refine only_mono (fun e he id locks => ?_) only
  rw [quiet e he] at locks
  cases locks

theorem decrement_own {config : BookingConfig} {quantity : Nat} :
    (decrement config eventId quantity).Only fun e => ∀ id, e.locks = some id →
      some eventId = some id := by
  have rounds : ∀ n, (optimisticRounds eventId quantity n).Only fun e => ∀ id,
      e.locks = some id → some eventId = some id := by
    intro n
    induction n with
    | zero => trivial
    | succ n ih =>
      unfold optimisticRounds
      refine only_bind (by simp [Effect.locks]) fun row => ?_
      refine only_bind (only_ofExcept _) fun event => ?_
      refine only_bind (by simp [Effect.locks]) fun affected => ?_
      split
      · trivial
      · exact ih
  unfold decrement
  cases config.lockStrategy with
  | none =>
    refine only_bind (by simp [Effect.locks]) fun row => ?_
    refine only_bind (only_ofExcept _) fun event => ?_
    exact only_bind (by simp [Effect.locks]) fun _ => trivial
  | pessimistic =>
    refine only_bind (by simp [Effect.locks]) fun row => ?_
    refine only_bind (only_ofExcept _) fun event => ?_
    exact only_bind (by simp [Effect.locks]) fun _ => trivial
  | optimistic => exact rounds _

theorem code_locks (j : Job) :
    j.code.Only fun e => ∀ id, e.locks = some id → j.event = some id := by
  cases j with
  | create dto => exact only_bind (by simp [Overbook.create, Effect.locks]) fun _ => trivial
  | book config eventId dto context =>
    refine only_bind (book_only ?_ ?_) fun _ => trivial
    · refine only_bind decrement_own fun result => ?_
      refine only_bind (by simp [Effect.locks]) fun booking => ?_
      refine only_bind (only_runIf ?_) fun _ => trivial
      refine only_bind (only_bind (by simp [Effect.locks]) fun _ => ?_) fun _ => trivial
      simp [Effect.locks]
    · intro e wraps id locks
      cases e <;> first | exact wraps.elim | cases locks
  | integrity eventId =>
    refine only_bind (locks_none integrity_wraps fun e wraps => ?_) fun _ => trivial
    cases e <;> first | rfl | exact wraps.elim
  | drainOnce config replica =>
    refine only_bind (only_bind (by simp [Effect.locks]) fun running => ?_) fun _ => trivial
    split
    · trivial
    · refine only_ensure (only_handle ?_ fun x => ?_) (by simp [Effect.locks])
      · refine only_bind (by simp [Effect.locks]) fun _ => only_bind ?_ fun _ => ?_
        · refine locks_none drainBatch_drains fun e drains => ?_
          cases e <;> first | rfl | exact drains.elim
        · exact only_bind (by simp [Effect.locks]) fun _ => trivial
      · exact only_bind (only_handle (by simp [Effect.locks]) fun _ => trivial) fun _ => trivial

theorem released {f : Cell EventRow → Cell EventRow} (release : Release t f)
    (events : s'.events = fun id => (s.events id).map f) (held : s'.heldEvent t' id = true) :
    s.heldEvent t' id = true := by
  simp only [heldEvent, events] at held ⊢
  cases row : s.events id with
  | none =>
    rw [row] at held
    cases held
  | some c =>
    rw [row] at held
    have held : (f c).heldBy t' = true := held
    by_cases own : t' = t
    · subst own
      exact absurd held (Bool.eq_false_iff.mp (release.self c))
    · exact (release.other t' c own).symm.trans held

theorem abort_held (held : (s.abort t).heldEvent t' id = true) : s.heldEvent t' id = true := by
  unfold abort at held
  split at held
  · exact released (release_rollback t) rfl held
  · exact held

theorem putEvent_held {id' : Uuid} {c : Cell EventRow}
    (held : (s.putEvent id' c).heldEvent t' id = true) :
    s.heldEvent t' id = true ∨ id = id' ∧ c.heldBy t' = true := by
  by_cases same : id = id'
  · subst same
    simp only [heldEvent, putEvent, Function.update_self] at held
    exact .inr ⟨rfl, held⟩
  · simp only [heldEvent, putEvent, Function.update_of_ne same] at held
    exact .inl held

/-- After a statement of `t` no other task holds an event that it did not hold before, and `t` only
the one that the statement locks. -/
theorem held_after {e : Effect} {c : Choice} {r : Except Err e.Answer}
    (h : exec partition t s e c = some (s', r)) (held : s'.heldEvent t' id = true) :
    s.heldEvent t' id = true ∨ t' = t ∧ e.locks = some id := by
  cases e <;> cases c <;> simp only [exec, failed, reduceCtorEq, Option.some.injEq, Prod.mk.injEq,
    Option.ite_none_right_eq_some, Option.ite_none_left_eq_some] at h
  case commitTx.ok =>
    obtain ⟨-, rfl, -⟩ := h
    exact .inl (released (release_commit t) rfl held)
  case commitTx.lostReply =>
    obtain ⟨-, rfl, -⟩ := h
    exact .inl (released (release_commit t) rfl held)
  case insertEvent.uuid =>
    obtain ⟨-, rfl, -⟩ := h
    rcases putEvent_held held with before | ⟨-, nobody⟩
    · exact .inl before
    · cases nobody
  case findEventForUpdate.ok id' =>
    obtain ⟨-, h⟩ := h
    split at h
    · cases h
      exact .inl held
    · obtain ⟨-, h⟩ := Option.ite_none_right_eq_some.mp h
      cases h
      rcases putEvent_held held with before | ⟨rfl, own⟩
      · exact .inl before
      · exact .inr ⟨(beq_iff_eq.mp own).symm, rfl⟩
  case updateEvent.ok id' cond patch =>
    obtain ⟨-, h⟩ := h
    split at h
    · cases h
      exact .inl held
    · split at h
      · split at h
        · cases h
          rcases putEvent_held held with before | ⟨rfl, own⟩
          · exact .inl before
          · exact .inr ⟨(beq_iff_eq.mp own).symm, rfl⟩
        · cases h
          exact .inl held
      · split at h
        · cases h
        · cases h
          exact .inl held
  all_goals first
    | (obtain ⟨rfl, -⟩ := h; exact .inl (abort_held held))
    | (obtain ⟨rfl, -⟩ := h; exact .inl held)
    | (obtain ⟨-, rfl, -⟩ := h; exact .inl held)

/-- Only a call about an event holds its row. -/
theorem holder_about (run : (api partition).Reach Ok migrated p)
    (held : p.shared.heldEvent t id = true) :
    ∃ j, (p.slot t).job = some j ∧ j.event = some id := by
  induction run with
  | refl => cases held
  | @step q q' a past ok st ih =>
    have keep : q.shared.heldEvent t id = true →
        ∃ j, (q'.slot t).job = some j ∧ j.event = some id := by
      intro before
      obtain ⟨j, job, event⟩ := ih before
      exact ⟨j, (Machine.steps_keep (Machine.steps_of_step st) t).1 j job, event⟩
    cases Machine.steps_of_step st with
    | @start t' j idle ready =>
      have same : (Machine.put q t' ((api partition).settle t' j q.shared
          ((api partition).code j))).shared = q.shared := settle_shared t' j q.shared _
      rw [same] at held
      exact keep held
    | @step t' c j e k s r live answered =>
      have same : (Machine.put q t' ((api partition).settle t' j s (k r))).shared = s :=
        settle_shared t' j s _
      rw [same] at held
      rcases held_after answered held with before | ⟨rfl, locks⟩
      · exact keep before
      · refine ⟨j, ?_, past.only code_locks live id locks⟩
        rw [Machine.put_self, Machine.settle_job]
    | kill live => exact keep held
    | @env x s happened =>
      cases x with
      | tick d =>
        cases Option.some.inj happened
        exact keep held
      | abortTx t' =>
        cases Option.some.inj happened
        exact keep (abort_held held)

end Overbook
