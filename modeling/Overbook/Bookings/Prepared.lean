import Overbook.Async.Past
import Overbook.Bookings.Verdicts
import Overbook.Discipline.History

/-! What a call has done before it begins a transaction or inserts a row: it has begun none, and it
has found the event of the booking. -/
namespace Overbook

open Async Prog ReadCommitted Kafka Store

variable {partition : String → String → Nat} {eventId id : Uuid} {t : Tid} {s s' : Store}
  {p q : ApiPool} {Ok : ApiPool → Act Job Choice Ext → Prop}

def Found (eventId : Uuid) (past : List Exchange) : Prop :=
  ∃ found : EventRow, ⟨.findEvent eventId, .ok (some found)⟩ ∈ past ∨
    ⟨.findEventForUpdate eventId, .ok (some found)⟩ ∈ past

/- A transaction is begun once, and a booking is inserted once its event has been found. -/
def Prepared (past : List Exchange) : Effect → Prop
  | .beginTx => ∀ y ∈ past, y.1 ≠ .beginTx
  | .insertEvent _ => ∀ y ∈ past, y.1 ≠ .beginTx
  | .insertBooking row => Found row.eventId past
  | _ => True

def Effect.anytime : Effect → Prop
  | .beginTx => False
  | .insertEvent _ => False
  | .insertBooking _ => False
  | _ => True

theorem anytime_prepared {e : Effect} (h : e.anytime) (past : List Exchange) : Prepared past e := by
  cases e <;> first | exact h.elim | trivial

variable {α : Type} {past : List Exchange}

theorem anytime_heeds {p : Service α} {J : List Exchange → Prop} (only : p.Only Effect.anytime)
    (keeps : ∀ past y, J past → J (past ++ [y])) (h : J past) :
    p.Heeds (fun _ => True) Prepared (fun past _ => J past) past :=
  heeds_only only (fun past _ hj any => ⟨anytime_prepared any past, fun _ => keeps past _ hj⟩) h

theorem quiet_heeds {p : Service α} (only : p.Only Effect.anytime) :
    p.Heeds (fun _ => True) Prepared (fun _ _ => True) past :=
  anytime_heeds (J := fun _ => True) only (fun _ _ _ => trivial) trivial

theorem Found.snoc (h : Found eventId past) (y : Exchange) : Found eventId (past ++ [y]) := by
  obtain ⟨found, read⟩ := h
  exact ⟨found, read.imp (List.mem_append_left _) (List.mem_append_left _)⟩

def OnceFound (eventId : Uuid) (past : List Exchange) (r : Except Err α) : Prop :=
  (∃ a, r = .ok a) → Found eventId past

theorem found_error {x : Err} : OnceFound eventId past (.error x : Except Err α) :=
  fun ⟨_, other⟩ => nomatch other

theorem finds_seats {row : Option EventRow} {quantity : Nat} {rest : EventRow → Service α}
    (read : ∀ found, row = some found → Found eventId past)
    (next : ∀ event, Found eventId past →
      (rest event).Heeds (fun _ => True) Prepared (OnceFound eventId) past) :
    (Prog.ofExcept (seatsFor eventId quantity row) >>= rest).Heeds (fun _ => True) Prepared
      (OnceFound eventId) past := by
  apply heeds_bind
  apply heeds_ofExcept
  cases row with
  | none => exact found_error
  | some event =>
    cases checked : seatsFor eventId quantity (some event) with
    | error x => exact found_error
    | ok event' => exact next event' (read event rfl)

theorem decrement_finds {config : BookingConfig} {quantity : Nat} :
    (decrement config eventId quantity).Heeds (fun _ => True) Prepared (OnceFound eventId)
      past := by
  have last : ∀ {past : List Exchange} {y : Exchange}, y ∈ past ++ [y] := fun {past y} =>
    List.mem_append_right past (List.mem_singleton_self y)
  have locked : ∀ {row : Option EventRow} {past : List Exchange} found, row = some found →
      Found eventId (past ++ [⟨.findEventForUpdate eventId, .ok row⟩]) := by
    rintro row past found rfl
    exact ⟨found, .inr last⟩
  have read : ∀ {row : Option EventRow} {past : List Exchange} found, row = some found →
      Found eventId (past ++ [⟨.findEvent eventId, .ok row⟩]) := by
    rintro row past found rfl
    exact ⟨found, .inl last⟩
  have updated : ∀ {past : List Exchange} {cond patch} {a : Decremented}, Found eventId past →
      (do let _ ← ask (.updateEvent eventId cond patch); pure a : Service Decremented).Heeds
        (fun _ => True) Prepared (OnceFound eventId) past := by
    intro past cond patch a found
    apply heeds_bind
    refine heeds_await (e := Effect.updateEvent ..) (by trivial) fun r _ => ?_
    cases r with
    | ok n => exact fun _ => found.snoc _
    | error x => exact found_error
  have rounds : ∀ n past, (optimisticRounds eventId quantity n).Heeds (fun _ => True) Prepared
      (OnceFound eventId) past := by
    intro n
    induction n with
    | zero => exact fun past => found_error
    | succ n ih =>
      intro past
      apply heeds_bind
      refine heeds_await (e := Effect.findEvent _) (by trivial) fun r _ => ?_
      cases r with
      | error x => exact found_error
      | ok row =>
        refine finds_seats read fun event found => ?_
        apply heeds_bind
        refine heeds_await (e := Effect.updateEvent ..) (by trivial) fun r _ => ?_
        cases r with
        | error x => exact found_error
        | ok affected =>
          dsimp only
          split
          · exact fun _ => found.snoc _
          · exact ih _
  unfold decrement
  cases config.lockStrategy with
  | none =>
    apply heeds_bind
    refine heeds_await (e := Effect.findEvent _) (by trivial) fun r _ => ?_
    cases r with
    | error x => exact found_error
    | ok row => exact finds_seats read fun event found => updated found
  | pessimistic =>
    apply heeds_bind
    refine heeds_await (e := Effect.findEventForUpdate _) (by trivial) fun r _ => ?_
    cases r with
    | error x => exact found_error
    | ok row => exact finds_seats locked fun event found => updated found
  | optimistic => exact rounds _ past

theorem bookInTransaction_prepared {config : AppConfiguration} {dto : CreateBookingDto}
    {context : BookingContext} :
    (bookInTransaction config eventId dto context).Heeds (fun _ => True) Prepared (fun _ _ => True)
      past := by
  apply heeds_bind
  refine decrement_finds.mono fun past r finds => ?_
  cases r with
  | error x => trivial
  | ok result =>
    apply heeds_bind
    refine heeds_await (e := Effect.insertBooking _) (finds ⟨result, rfl⟩) fun r _ => ?_
    cases r with
    | error x => trivial
    | ok booking =>
      refine quiet_heeds (only_bind (only_runIf ?_) fun _ => trivial)
      refine only_bind (only_bind (by simp [Effect.anytime]) fun _ => ?_) fun _ => trivial
      simp [Effect.anytime]

theorem transaction_prepared {run : Service α} (fresh : ∀ y ∈ past, y.1 ≠ .beginTx)
    (body : ∀ past, run.Heeds (fun _ => True) Prepared (fun _ _ => True) past) :
    (transaction run).Heeds (fun _ => True) Prepared (fun _ _ => True) past := by
  have undone : ∀ (x : Err) past, (do
      tryCatch (ask .rollbackTx) fun _ => pure ()
      throw x : Service α).Heeds (fun _ => True) Prepared (fun _ _ => True) past := by
    intro x past
    refine quiet_heeds (only_bind (only_handle (by simp [Effect.anytime]) fun _ => trivial) ?_)
    exact fun _ => trivial
  apply heeds_handle
  apply heeds_bind
  refine heeds_await (e := Effect.beginTx) fresh fun r _ => ?_
  cases r with
  | error x => exact undone x _
  | ok u =>
    apply heeds_bind
    refine (body _).mono fun past r _ => ?_
    cases r with
    | error x => exact undone x past
    | ok a =>
      apply heeds_bind
      refine heeds_await (e := Effect.commitTx) (by trivial) fun r _ => ?_
      cases r with
      | error x => exact undone x _
      | ok u => trivial

theorem integrity_anytime : (integrity eventId).Only Effect.anytime := by
  refine only_bind (by simp [Effect.anytime]) fun row => ?_
  cases row with
  | none => trivial
  | some event => exact only_bind (by simp [Effect.anytime]) fun _ => trivial

theorem afterCommit_anytime {config : AppConfiguration} {context : BookingContext}
    {booking : BookingRow} {result : Decremented} :
    (afterCommit config eventId context booking result).Only Effect.anytime := by
  unfold afterCommit
  refine only_bind (by simp [Effect.anytime]) fun _ => ?_
  refine only_bind (only_handle (by simp [Effect.anytime]) fun _ => trivial) fun _ => ?_
  refine only_bind (only_runIf (only_bind integrity_anytime fun _ => only_runIf ?_)) fun _ => ?_
  · simp [Effect.anytime]
  refine only_bind (only_runIf (by simp [Effect.anytime])) fun _ => ?_
  refine only_bind (only_runIf (only_handle ?_ fun _ => trivial)) fun _ => trivial
  simp [publish, publishBatch, send, Effect.anytime]

/-- Every call asks for what it has prepared. -/
theorem code_prepared (j : Job) :
    j.code.Heeds (fun _ => True) Prepared (fun _ _ => True) [] := by
  have ret : ∀ {β : Type} {p : Service β} {f : β → Response},
      p.Heeds (fun _ => True) Prepared (fun _ _ => True) [] →
      (do pure (f (← p))).Heeds (fun _ => True) Prepared (fun _ _ => True) [] := by
    intro β p f h
    apply heeds_bind
    refine h.mono fun past r _ => ?_
    cases r <;> trivial
  cases j with
  | create dto =>
    exact ret (heeds_await (e := Effect.insertEvent _)
      (fun _ none => absurd none List.not_mem_nil) fun _ _ => trivial)
  | book config eventId dto context =>
    apply ret
    have told : ∀ (x : Err) past, (do
        ask (.bookingsTotal x.bookingResult config.booking.lockStrategy)
        throw x : Service BookingResponse).Heeds (fun _ => True) Prepared (fun _ _ => True) past :=
      fun x past => quiet_heeds (only_bind (by simp [Effect.anytime]) fun _ => trivial)
    apply heeds_handle
    apply heeds_bind
    refine (transaction_prepared (fun _ none => absurd none List.not_mem_nil) fun past =>
      bookInTransaction_prepared).mono ?_
    intro past r _
    cases r with
    | error x => exact told x past
    | ok a =>
      refine (quiet_heeds afterCommit_anytime).mono fun past r _ => ?_
      cases r with
      | ok response => trivial
      | error x => exact told x past
  | integrity eventId => exact ret (quiet_heeds integrity_anytime)
  | drainOnce config replica =>
    apply ret
    apply heeds_bind
    refine heeds_await (e := Effect.enterDrain _) (by trivial) fun r _ => ?_
    cases r with
    | error x => trivial
    | ok running =>
      cases running with
      | true => trivial
      | false =>
        apply heeds_ensure
        refine (transaction_prepared (by simp) fun past => ?_).mono fun past r _ => ?_
        · refine quiet_heeds (only_mono (fun e drains => ?_) drainBatch_drains)
          cases e <;> trivial
        · exact quiet_heeds (by simp [Effect.anytime])

/-! What is known of the store where a call asks. -/

variable {entries : List ApiEntry}

theorem reach_known (known : (q.shared.events eventId).isSome = true)
    (run : (api partition).Reach Ok q p) : (p.shared.events eventId).isSome = true := by
  induction run with
  | refl => exact known
  | @step q' p a _ _ st ih =>
    cases Machine.steps_of_step st with
    | start =>
      rw [Machine.put, settle_shared]
      exact ih
    | step live answered =>
      rw [Machine.put, settle_shared]
      exact exec_known ih answered
    | kill live => exact ih
    | @env x s happened =>
      cases x with
      | tick d =>
        cases Option.some.inj happened
        exact ih
      | abortTx t =>
        cases Option.some.inj happened
        exact abort_known ih

/-- An event that has been found is there. -/
theorem found_known (h : (api partition).History Ok migrated entries p)
    (found : Found eventId (eventsOf t entries)) : (p.shared.events eventId).isSome = true := by
  have later : ∀ x : ApiEntry, x ∈ entries → (x.before.events eventId).isSome = true →
      (p.shared.events eventId).isSome = true := by
    intro x hx known
    obtain ⟨first, last, rfl⟩ := List.append_of_mem hx
    obtain ⟨r, -, before, run⟩ := h.since
    rw [← before] at known
    exact reach_known known run
  obtain ⟨row, read | locked⟩ := found
  · obtain ⟨x, hx, same⟩ := List.mem_map.mp read
    have mine := (List.mem_filter.mp hx).1
    obtain ⟨r, j, k, c, -, -, -, -, answered⟩ := h.answered mine
    refine later x mine ?_
    obtain ⟨task, effect, answer, before, after⟩ := x
    cases same
    obtain ⟨-, there⟩ := findEvent_ok answered
    cases row' : before.events eventId with
    | none => simp [row'] at there
    | some cell => rfl
  · obtain ⟨x, hx, same⟩ := List.mem_map.mp locked
    have mine := (List.mem_filter.mp hx).1
    obtain ⟨r, j, k, c, -, -, -, -, answered⟩ := h.answered mine
    refine later x mine ?_
    obtain ⟨task, effect, answer, before, after⟩ := x
    cases same
    obtain ⟨-, ⟨-, -, none⟩ | ⟨cell, row', -⟩⟩ := findEventForUpdate_ok answered
    · cases none
    · change (before.events eventId).isSome = true
      rw [row']
      rfl

theorem active_before {e : Effect} {c : Choice} (touch : Touch t s e c s') (other : e ≠ .beginTx)
    (act : s'.active t = true) : s.active t = true := by
  have inactive : ∀ s : Store, (s.setTx t {}).active t = false := by
    intro s
    rw [active, setTx_self]
    rfl
  cases touch with
  | rest s' _ _ _ tx => rwa [← active_congr (congrFun tx t)]
  | begun => exact absurd rfl other
  | committed open' => exact open'
  | aborted => exact absurd act (Bool.eq_false_iff.mp (abort_inactive t s))
  | rolledBack => exact absurd act (Bool.eq_false_iff.mp (inactive _))
  | created => exact act
  | event id cell v open' => exact open'
  | booking row b open' => exact open'
  | message row m open' => exact open'
  | selected limit rows open' => exact open'
  | updated ids patch open' => exact open'
  | sent => exact act

theorem active_begun (h : (api partition).History Ok migrated entries p)
    (act : p.shared.active t = true) : ∃ y ∈ eventsOf t entries, y.1 = .beginTx := by
  induction h with
  | refl => cases act
  | @step entries q q' a past ok st ih =>
    have before : q.shared.active t = true →
        ∃ y ∈ eventsOf t (entries ++ (api partition).logged q a), y.1 = .beginTx := by
      intro act
      obtain ⟨y, hy, begun⟩ := ih act
      exact ⟨y, by rw [eventsOf_append]; exact List.mem_append_left _ hy, begun⟩
    cases Machine.steps_of_step st with
    | start =>
      rw [Machine.put, settle_shared] at act
      exact before act
    | kill live => exact before act
    | @step t' c j e k s r live answered =>
      rw [Machine.put, settle_shared] at act
      have touch := exec_touch answered
      by_cases own : t = t'
      · subst own
        by_cases begin : e = .beginTx
        · subst begin
          rw [Machine.logged_step live answered]
          have last := eventsOf_own entries (⟨t, .beginTx, r, q.shared, s⟩ : ApiEntry)
          refine ⟨⟨.beginTx, r⟩, ?_, rfl⟩
          rw [last]
          exact List.mem_append_right _ (List.mem_singleton_self _)
        · exact before (active_before touch begin act)
      · exact before (by rwa [← active_congr (touch_tx own touch)])
    | @env x s happened =>
      refine before ?_
      cases x with
      | tick d =>
        cases Option.some.inj happened
        exact act
      | abortTx t' =>
        cases Option.some.inj happened
        rw [← active_congr ((frame_abort t').tx act)]
        exact act

end Overbook
