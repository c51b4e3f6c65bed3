import Overbook.Bookings.Ledger

/-! The answers that a book call may get once its event exists: how many seats are left, that the
event is sold out, that it is contended, or that a connection was lost. -/
namespace Overbook

open Async Prog ReadCommitted Kafka Store

inductive Verdict where
  | confirmed (seatsRemaining : Int)
  | soldOut
  deriving DecidableEq

def verdict : Except Err Response → Option Verdict
  | .ok (.booked response) => some (.confirmed response.seatsRemaining)
  | .error x => if x = Overbook.soldOut then some .soldOut else none
  | _ => none

def contended : Err := .conflict "Too much contention on this event, please retry"

/- What is left aside: contention, and failures of the infrastructure. -/
def Excused (x : Err) : Prop := x = contended ∨ x = lost

variable {partition : String → String → Nat} {eventId : Uuid} {t : Tid} {s s' : Store}

theorem abort_known (known : (s.events eventId).isSome = true) :
    ((s.abort t).events eventId).isSome = true := by
  have same := congrArg Option.isSome (abort_events t s eventId)
  simp only [Option.isSome_map] at same
  rw [same]
  exact known

/-- No statement deletes an event. -/
theorem exec_known {e : Effect} {c : Choice} {r : Except Err e.Answer}
    (known : (s.events eventId).isSome = true) (h : exec partition t s e c = some (s', r)) :
    (s'.events eventId).isSome = true := by
  have put : ∀ (s : Store) id c, (s.events eventId).isSome = true →
      ((s.putEvent id c).events eventId).isSome = true := by
    intro s id c known
    by_cases same : eventId = id
    · simp [putEvent, same]
    · simpa [putEvent, Function.update_of_ne same] using known
  cases exec_touch h with
  | rest s' events => rw [events]; exact known
  | committed => simpa [commitTx] using known
  | aborted => exact abort_known known
  | rolledBack => exact abort_known known
  | created id row => exact put (s.issue id t) id _ known
  | event id cell v => exact put s id _ known
  | _ => exact known

/-- The logic of the event's existence: its invariant is all that a refusal depends on. -/
def present (eventId : Uuid) (partition : String → String → Nat) : Logic (api partition) where
  Inv s := (s.events eventId).isSome = true
  Frame _ _ _ := True
  Fresh _ _ := True
  Here _ _ _ := True
  Ok _ _ _ _ := True
  refl _ _ := trivial
  trans _ _ _ _ _ _ := trivial
  fresh _ _ _ _ _ := trivial

def Fine {α : Type} (r : Except Err α) (_ : Store) : Prop :=
  ∀ x, r = .error x → x = soldOut ∨ Excused x

theorem fine_ok {α : Type} {a : α} : Fine (.ok a) s := fun _ h => nomatch h

theorem fine_lost {α : Type} : Fine (.error lost : Except Err α) s :=
  fun _ h => .inr (.inr (Except.error.inj h).symm)

theorem present_await {e : Effect} {Q : Except Err e.Answer → Store → Prop}
    (h : ∀ s c s' r, (s.events eventId).isSome = true → exec partition t s e c = some (s', r) →
      Q r s') : (present eventId partition).Safe t (ask e) Q s := by
  apply Logic.Safe.await
  intro s₁ _ inv
  refine ⟨trivial, fun c s₂ r _ he => ⟨⟨exec_known inv he, fun _ _ => trivial⟩, ?_⟩⟩
  exact h s₁ c s₂ r inv he

theorem fine_ask {e : Effect} : (present eventId partition).Safe t (ask e) Fine s := by
  refine present_await fun s₁ c s₂ r _ he => ?_
  cases r with
  | ok a => exact fine_ok
  | error x => rw [error_lost he]; exact fine_lost

theorem fine_bind {α β : Type} {p : Service α} {f : α → Service β}
    (h : (present eventId partition).Safe t p Fine s)
    (next : ∀ a s, (present eventId partition).Safe t (f a) Fine s) :
    (present eventId partition).Safe t (p >>= f) Fine s := by
  apply Logic.Safe.bind
  refine h.mono fun r s' hr => ?_
  cases r with
  | ok a => exact next a s'
  | error x => exact fun _ h => hr _ (congrArg _ (Except.error.inj h))

theorem fine_handle {α : Type} {p : Service α} {f : Err → Service α}
    (h : (present eventId partition).Safe t p Fine s)
    (next : ∀ x s, x = soldOut ∨ Excused x → (present eventId partition).Safe t (f x) Fine s) :
    (present eventId partition).Safe t (tryCatch p f) Fine s := by
  apply Logic.Safe.handle
  refine h.mono fun r s' hr => ?_
  cases r with
  | ok a => exact fine_ok
  | error x => exact next x s' (hr x rfl)

theorem fine_throw {α : Type} {x : Err} (h : x = soldOut ∨ Excused x) :
    (present eventId partition).Safe t (throw x : Service α) Fine s :=
  fun _ hy => (Except.error.inj hy) ▸ h

theorem fine_runIf {c : Bool} {p : Service Unit} (h : (present eventId partition).Safe t p Fine s) :
    (present eventId partition).Safe t (runIf c p) Fine s := by
  cases c with
  | true => exact h
  | false => exact fine_ok

def Finds (r : Except Err (Option EventRow)) (s : Store) : Prop := Fine r s ∧ r ≠ .ok none

theorem findEvent_finds : (present eventId partition).Safe t (ask (.findEvent eventId)) Finds s := by
  refine present_await fun s₁ c s₂ r known he => ?_
  cases r with
  | ok row =>
    obtain ⟨-, rfl⟩ := findEvent_ok he
    refine ⟨fine_ok, fun absent => ?_⟩
    have gone := congrArg Option.isSome (Except.ok.inj absent)
    rw [Option.isSome_map, known] at gone
    cases gone
  | error x =>
    rw [error_lost he]
    exact ⟨fine_lost, fun h => nomatch h⟩

theorem findEventForUpdate_finds :
    (present eventId partition).Safe t (ask (.findEventForUpdate eventId)) Finds s := by
  refine present_await fun s₁ c s₂ r known he => ?_
  cases r with
  | ok row =>
    refine ⟨fine_ok, fun absent => ?_⟩
    cases Except.ok.inj absent
    obtain ⟨-, ⟨gone, -, -⟩ | ⟨cell, -, -, -, same⟩⟩ := findEventForUpdate_ok he
    · rw [gone] at known
      cases known
    · cases same
  | error x =>
    rw [error_lost he]
    exact ⟨fine_lost, fun h => nomatch h⟩

/-- The checks that follow a read: the event is there, and may be sold out. -/
theorem fine_seats {α : Type} {quantity : Nat} {p : Service (Option EventRow)}
    {f : EventRow → Service α} (h : (present eventId partition).Safe t p Finds s)
    (next : ∀ event s, (present eventId partition).Safe t (f event) Fine s) :
    (present eventId partition).Safe t
      (do let event ← Prog.ofExcept (seatsFor eventId quantity (← p)); f event) Fine s := by
  apply Logic.Safe.bind
  refine h.mono fun r s' hr => ?_
  cases r with
  | error x => exact fun _ h => hr.1 _ (congrArg _ (Except.error.inj h))
  | ok row =>
    cases row with
    | none => exact absurd rfl hr.2
    | some event =>
      refine Logic.Safe.check (fun event _ => next event s') fun x refused => ?_
      simp only [seatsFor] at refused
      split at refused
      · exact fun _ hy => .inl ((Except.error.inj hy).symm.trans (Except.error.inj refused).symm)
      · cases refused

theorem optimistic_fine {quantity : Nat} (rounds : Nat) :
    (present eventId partition).Safe t (optimisticRounds eventId quantity rounds) Fine s := by
  induction rounds generalizing s with
  | zero => exact fine_throw (.inr (.inl rfl))
  | succ rounds ih =>
    unfold optimisticRounds
    refine fine_seats findEvent_finds fun event s₁ => fine_bind fine_ask fun affected s₂ => ?_
    split
    · exact fine_ok
    · exact ih

theorem decrement_fine {config : BookingConfig} {quantity : Nat} :
    (present eventId partition).Safe t (decrement config eventId quantity) Fine s := by
  unfold decrement
  cases config.lockStrategy with
  | none => exact fine_seats findEvent_finds fun _ _ => fine_bind fine_ask fun _ _ => fine_ok
  | pessimistic =>
    exact fine_seats findEventForUpdate_finds fun _ _ => fine_bind fine_ask fun _ _ => fine_ok
  | optimistic => exact optimistic_fine _

theorem transaction_fine {α : Type} {run : Service α}
    (body : ∀ s, (present eventId partition).Safe t run Fine s) :
    (present eventId partition).Safe t (transaction run) Fine s := by
  unfold transaction
  refine fine_handle ?_ fun x s₁ hx => ?_
  · refine fine_bind fine_ask fun _ s₁ => fine_bind (body s₁) fun _ s₂ => ?_
    exact fine_bind fine_ask fun _ _ => fine_ok
  · exact fine_bind (fine_handle fine_ask fun _ _ _ => fine_ok) fun _ _ => fine_throw hx

theorem integrity_fine : (present eventId partition).Safe t (integrity eventId) Fine s := by
  unfold integrity
  apply Logic.Safe.bind
  refine findEvent_finds.mono fun r s' hr => ?_
  cases r with
  | error x => exact fun _ h => hr.1 _ (congrArg _ (Except.error.inj h))
  | ok row =>
    cases row with
    | none => exact absurd rfl hr.2
    | some event => exact fine_bind fine_ask fun _ _ => fine_ok

theorem book_fine {config : AppConfiguration} {dto : CreateBookingDto} {context : BookingContext} :
    (present eventId partition).Safe t (book config eventId dto context) Fine s := by
  have quiet : ∀ {p : Service Unit} {s}, (present eventId partition).Safe t p Fine s →
      (present eventId partition).Safe t (tryCatch p fun _ => pure ()) Fine s :=
    fun h => fine_handle h fun _ _ _ => fine_ok
  unfold book
  refine fine_handle ?_ fun x s₁ hx => fine_bind fine_ask fun _ _ => fine_throw hx
  refine fine_bind (transaction_fine fun s₁ => ?_) fun a s₁ => ?_
  · unfold bookInTransaction enqueueConfirmed enqueue
    refine fine_bind decrement_fine fun _ s₂ => fine_bind fine_ask fun _ s₃ => ?_
    refine fine_bind (fine_runIf ?_) fun _ _ => fine_ok
    exact fine_bind (fine_bind fine_ask fun _ _ => fine_ask) fun _ _ => fine_ok
  · unfold afterCommit
    refine fine_bind fine_ask fun _ s₂ => fine_bind (quiet fine_ask) fun _ s₃ => ?_
    refine fine_bind (fine_runIf ?_) fun _ s₄ => fine_bind (fine_runIf fine_ask) fun _ s₅ => ?_
    · exact fine_bind integrity_fine fun _ _ => fine_runIf fine_ask
    · exact fine_bind (fine_runIf (quiet fine_ask)) fun _ _ => fine_ok

def Settles (r : Except Err Response) : Prop :=
  (∃ v, verdict r = some v) ∨ ∃ x, r = .error x ∧ Excused x

theorem present_any {α : Type} {p : Service α} {Q : Except Err α → Store → Prop}
    (all : ∀ r s, Q r s) : (present eventId partition).Safe t p Q s := by
  induction p generalizing s with
  | done a => exact all _ _
  | fail x => exact all _ _
  | call e k ih =>
    intro s₁ _ inv
    exact ⟨trivial, fun c s₂ r _ he => ⟨⟨exec_known inv he, fun _ _ => trivial⟩, ih r⟩⟩

theorem present_verified (q : ApiPool) : Logic.Verified (present eventId partition)
    (fun _ _ => True) (fun t j r _ => q.slot t = .idle →
      bookCall eventId j ≠ none → Settles r) where
  allowed _ _ _ _ _ _ _ _ := trivial
  code p t j _ _ _ _ := by
    have unasked : bookCall eventId j = none → (present eventId partition).Safe t j.code
        (fun r _ => q.slot t = .idle → bookCall eventId j ≠ none → Settles r) p.shared :=
      fun other => present_any fun _ _ _ asked => absurd other asked
    cases j with
    | book config e dto context =>
      by_cases same : e = eventId
      · subst same
        apply Logic.Safe.bind
        refine book_fine.mono fun r s hr => ?_
        cases r with
        | ok response => exact fun _ _ => .inl ⟨_, rfl⟩
        | error x =>
          intro _ _
          rcases hr x rfl with rfl | excused
          · exact .inl ⟨.soldOut, by simp [verdict]⟩
          · exact .inr ⟨x, rfl, excused⟩
      · exact unasked (by simp [bookCall, same])
    | _ => exact unasked rfl
  finish _ _ _ _ inv _ := ⟨inv, fun _ _ => trivial⟩
  ext p x s' _ inv h := by
    refine ⟨?_, fun _ => trivial⟩
    cases x with
    | tick d => cases Option.some.inj h; exact inv
    | abortTx t =>
      cases Option.some.inj h
      exact abort_known inv

/-- A call that starts once its event exists is confirmed, sold out, or left aside. -/
theorem book_settles {Ok : ApiPool → Act Job Choice Ext → Prop} {p q : ApiPool}
    (known : (q.shared.events eventId).isSome = true) (run : (api partition).Reach Ok q p)
    (idle : q.slot t = .idle) {j : Job} {r : Except Err Response} (asked : bookCall eventId j ≠ none)
    (ended : p.slot t = .ended j r) : Settles r := by
  have start : Logic.Sound (present eventId partition) (fun t j r _ =>
      q.slot t = .idle → bookCall eventId j ≠ none → Settles r) q := by
    refine ⟨known, fun _ _ => trivial, fun t j e k live => ?_, fun _ _ _ _ => trivial,
      fun _ _ _ => trivial⟩
    refine present_any fun _ _ idle => ?_
    rw [live] at idle
    cases idle
  refine Logic.answers_last (present_verified q) start (run.mono fun _ _ _ => trivial)
    (fun _ _ _ _ _ h _ => h) (fun _ _ _ _ _ h => h) (fun t j r ended idle => ?_) ended idle asked
  rw [ended] at idle
  cases idle

end Overbook
