import Overbook.Discipline.Basic

/-! A book call, statement by statement: at its COMMIT the transaction holds one booking, the
outbox row that announces it where the configuration asks for one, and the seats taken off. -/
namespace Overbook

open Async Prog ReadCommitted Kafka Store

variable {R : Regime} {partition : String → String → Nat} {t : Tid} {s : Store}

theorem cell_stable {id : Uuid} {P : Cell EventRow → Prop} :
    Stable t fun s => ∃ c, s.events id = some c ∧ c.heldBy t = true ∧ P c := by
  rintro s s' ⟨c, row, held, p⟩ f act
  have mine : s.heldEvent t id = true := by simp [heldEvent, row, held]
  exact ⟨c, (f.events act id (.inl mine)).trans row, held, p⟩

theorem Owns.weaken {bookings : List BookingRow} {outbox rows : List OutboxRow}
    (h : Owns t bookings outbox none rows s) (event : Option Uuid) :
    Owns t bookings outbox event rows s := by
  refine { h with events := fun id held => ?_ }
  cases h.events id held

theorem Owns.view {bookings : List BookingRow} {outbox rows : List OutboxRow}
    (h : Owns t bookings outbox none rows s) {id : Uuid} {c : Cell EventRow}
    (row : s.events id = some c) : c.view t = c.committed := by
  apply Cell.view_of_not_heldBy
  by_contra held
  have mine : s.heldEvent t id = true := by simpa [heldEvent, row] using held
  cases h.events id mine

theorem Owns.putEvent {bookings : List BookingRow} {outbox rows : List OutboxRow} {id : Uuid}
    (h : Owns t bookings outbox (some id) rows s) (c : Cell EventRow) :
    Owns t bookings outbox (some id) rows (s.putEvent id c) := by
  refine ⟨h.bookings, h.outbox, fun id' held => ?_, h.selected, h.held, h.picked, h.pending⟩
  by_cases ne : id' = id
  · rw [ne]
  · refine h.events id' ?_
    simpa [heldEvent, Store.putEvent, Function.update_of_ne ne] using held

theorem Owns.insertBooking {outbox rows : List OutboxRow} {bookings : List BookingRow}
    {event : Option Uuid} (h : Owns t bookings outbox event rows s) (b : BookingRow) :
    Owns t (bookings ++ [b]) outbox event rows ((s.issue b.id t).setTx t
      { s.tx t with bookings := (s.tx t).bookings ++ [b] }) := by
  refine ⟨?_, ?_, h.events, ?_, h.held, h.picked, h.pending⟩ <;> rw [setTx_self]
  · exact congrArg (· ++ [b]) h.bookings
  · exact h.outbox
  · exact h.selected

theorem Owns.insertOutbox {outbox rows : List OutboxRow} {bookings : List BookingRow}
    {event : Option Uuid} (h : Owns t bookings outbox event rows s) (m : OutboxRow) :
    Owns t bookings (outbox ++ [m]) event rows ((s.issue m.id t).setTx t
      { s.tx t with outbox := (s.tx t).outbox ++ [m] }) := by
  refine ⟨?_, ?_, h.events, ?_, h.held, h.picked, h.pending⟩ <;> rw [setTx_self]
  · exact h.bookings
  · exact congrArg (· ++ [m]) h.outbox
  · exact h.selected

theorem insert_active {id : Uuid} {x : Tx} (h : x.status = .active) :
    ((s.issue id t).setTx t x).active t = true := active_iff.mpr (by rw [setTx_self]; exact h)

theorem seatsFor_ok {eventId : Uuid} {quantity : Nat} {row : Option EventRow} {event : EventRow}
    (h : seatsFor eventId quantity row = .ok event) :
    row = some event ∧ (quantity : Int) ≤ event.availableSeats := by
  cases row with
  | none => cases h
  | some r =>
    simp only [seatsFor] at h
    split at h
    · cases h
    · cases h; exact ⟨rfl, by omega⟩

/-- What a decrement leaves behind in the open transaction. -/
def Reserved (strategy : BookingLockStrategy) (eventId : Uuid) (quantity : Nat) (t : Tid)
    (s : Store) : Prop :=
  Owns t [] [] (some eventId) [] s ∧ Taken strategy eventId quantity t s

abbrev Reserves (R : Regime) (strategy : BookingLockStrategy) (eventId : Uuid) (quantity : Nat)
    (t : Tid) : Except Err Decremented → Store → Prop :=
  Leaves R t fun _ => During R t (Reserved strategy eventId quantity t)

theorem naive_safe {eventId : Uuid} {quantity : Nat} (h : During R t (Clean t) s) :
    (discipline R partition).Safe t (decrementNaive eventId quantity)
      (Reserves R .none eventId quantity t) s := by
  unfold decrementNaive
  refine ask_bind h (during_steady owns_stable) (fun _ _ _ => trivial) ?_
  intro s₁ c s₂ row _ h₁ _ he
  obtain ⟨rfl, -⟩ := findEvent_ok he
  refine Logic.Safe.check (fun event _ => ?_) fun _ _ => h₁.thrown
  refine ask_bind h₁ (during_steady owns_stable) (fun _ _ _ => by trivial) ?_
  intro s₃ c s₄ affected _ h₃ _ he
  obtain ⟨act, ⟨rfl, -⟩ | ⟨cell, row, -, -, rfl, -⟩⟩ := updateEvent_ok he
  · exact .of act ⟨(h₃.now act).weaken _, fun locked => absurd rfl locked⟩
  · exact .of act ⟨((h₃.now act).weaken _).putEvent _, fun locked => absurd rfl locked⟩

theorem pessimistic_safe {eventId : Uuid} {quantity : Nat} (h : During R t (Clean t) s) :
    (discipline R partition).Safe t (decrementPessimistic eventId quantity)
      (Reserves R .pessimistic eventId quantity t) s := by
  unfold decrementPessimistic
  refine ask_bind h (during_steady owns_stable) (fun _ _ _ => trivial) ?_
  intro s₁ c s₂ row _ h₁ _ he
  obtain ⟨act, found⟩ := findEventForUpdate_ok he
  have kept : During R t (Owns t [] [] (some eventId) []) s₂ := by
    obtain ⟨-, rfl, -⟩ | ⟨cell, row, free, rfl, -⟩ := found
    · exact .of act ((h₁.now act).weaken _)
    · exact .of act (((h₁.now act).weaken _).putEvent _)
  refine Logic.Safe.check (fun event hs => ?_) fun _ _ => kept.thrown
  obtain ⟨rfl, enough⟩ := seatsFor_ok hs
  obtain ⟨-, -, none⟩ | ⟨cell, row, free, rfl, same⟩ := found
  · cases none
  -- the lock is held from here on, and the row read under it is the committed one
  have seen : cell.view t = cell.committed := (h₁.now act).view row
  cases Option.some.inj same
  have locked : During R t (fun s => Owns t [] [] (some eventId) [] s ∧
      ∃ c, s.events eventId = some c ∧ c.heldBy t = true ∧
        (c.view t = cell.view t ∧ c.committed = cell.view t))
      (s₁.putEvent eventId (cell.lock t)) := by
    refine .of act ⟨kept.now act, cell.lock t, ?_, by simp, by simp, ?_⟩
    · simp [Store.putEvent]
    · exact seen.symm
  refine ask_bind locked (during_steady (owns_stable.and cell_stable)) (fun _ _ _ => by trivial) ?_
  intro s₃ c s₄ affected _ h₃ _ he
  obtain ⟨act₃, change⟩ := updateEvent_ok he
  obtain ⟨owns, cell₃, row₃, held₃, view₃, committed₃⟩ := h₃.now act₃
  obtain ⟨-, -, missed⟩ | ⟨cell', row', -, -, rfl, -⟩ := change
  · cases missed cell₃ row₃
  · cases Option.some.inj (row₃.symm.trans row')
    refine During.of act₃ ⟨owns.putEvent _, fun _ => ⟨_, by simp [Store.putEvent]; rfl, ?_⟩⟩
    simp [view₃, committed₃, taken, EventPatch.apply, enough]

theorem optimistic_safe {eventId : Uuid} {quantity rounds : Nat} (h : During R t (Clean t) s) :
    (discipline R partition).Safe t (optimisticRounds eventId quantity rounds)
      (Reserves R .optimistic eventId quantity t) s := by
  induction rounds generalizing s with
  | zero => exact h.thrown
  | succ rounds ih =>
    unfold optimisticRounds
    refine ask_bind h (during_steady owns_stable) (fun _ _ _ => trivial) ?_
    intro s₁ c s₂ row _ h₁ _ he
    obtain ⟨rfl, -⟩ := findEvent_ok he
    refine Logic.Safe.check (fun event _ => ?_) fun _ _ => h₁.thrown
    refine ask_bind h₁ (during_steady owns_stable) (fun _ _ _ => by trivial) ?_
    intro s₃ c s₄ affected _ h₃ _ he
    obtain ⟨act, ⟨rfl, rfl, -⟩ | ⟨cell, row, -, matched, rfl, rfl⟩⟩ := updateEvent_ok he
    -- nobody's row was touched: the next round starts as clean as this one
    · exact ih (.of act (h₃.now act))
    · have seen := (h₃.now act).view row
      simp only [unchanged, Bool.and_eq_true, decide_eq_true_eq, seen] at matched
      refine During.of act ⟨((h₃.now act).weaken _).putEvent _,
        fun _ => ⟨_, by simp [Store.putEvent]; rfl, ?_⟩⟩
      simp [seen, taken, EventPatch.apply, matched.2]

theorem decrement_safe {config : BookingConfig} {eventId : Uuid} {quantity : Nat}
    (h : During R t (Clean t) s) :
    (discipline R partition).Safe t (decrement config eventId quantity)
      (Reserves R config.lockStrategy eventId quantity t) s := by
  unfold decrement
  cases config.lockStrategy with
  | none => exact naive_safe h
  | pessimistic => exact pessimistic_safe h
  | optimistic => exact optimistic_safe h

/-- What a book call has written when its transaction is about to commit. -/
structure Booked (config : AppConfiguration) (eventId : Uuid) (dto : CreateBookingDto)
    (context : BookingContext) (t : Tid) (b : BookingRow) (outbox : List OutboxRow)
    (s : Store) : Prop where
  booking : BookingFor eventId dto context b
  owns : Owns t [b] outbox (some eventId) [] s
  seats : Taken config.booking.lockStrategy eventId dto.quantity t s

theorem booked_stable {config : AppConfiguration} {eventId : Uuid} {dto : CreateBookingDto}
    {context : BookingContext} {b : BookingRow} {outbox : List OutboxRow} :
    Stable t (Booked config eventId dto context t b outbox) := by
  intro s s' h f act
  exact ⟨h.booking, owns_stable s s' h.owns f act, taken_stable s s' h.seats f act⟩

abbrev Announced (config : AppConfiguration) (b : BookingRow) (outbox : List OutboxRow) : Prop :=
  (config.outbox.enqueues = true →
    ∃ m, outbox = [m] ∧ Announces config.kafka.topics.booking m b) ∧
  (config.outbox.enqueues = false → outbox = [])

variable {config : AppConfiguration} {eventId : Uuid} {dto : CreateBookingDto}
  {context : BookingContext}

theorem enqueue_safe {b : BookingRow} {result : Decremented}
    (on : config.outbox.enqueues = true)
    (h : During R t (Booked config eventId dto context t b []) s) :
    (discipline R partition).Safe t (enqueueConfirmed config eventId context b result)
      (Leaves R t fun _ => During R t fun s => ∃ outbox, Announced config b outbox ∧
        Booked config eventId dto context t b outbox s) s := by
  unfold enqueueConfirmed enqueue
  refine leaves_bind (P := fun _ => During R t fun s => ∃ outbox, Announced config b outbox ∧
    Booked config eventId dto context t b outbox s) ?_ fun _ _ h => h
  refine ask_bind h (during_steady booked_stable) (fun _ _ _ => by trivial) ?_
  intro s₁ c s₂ now _ h₁ _ he
  cases dateNow_ok he
  refine (ask_safe h₁ (during_steady booked_stable) (fun _ _ _ => by trivial) ?_)
  intro s₃ c s₄ r _ h₃ answers he
  cases r with
  | error x => exact .inl (fails_of_error answers he (by simp))
  | ok m =>
    obtain ⟨act, -, row, rfl⟩ := insertOutbox_ok he
    obtain ⟨booking, owns, seats⟩ := h₃.now act
    have status := active_iff.mp act
    refine During.of (insert_active status) ⟨[m], ⟨fun _ => ⟨m, rfl, ?_⟩, fun off => ?_⟩, booking,
      owns.insertOutbox m, seats⟩
    · rw [row]
      refine ⟨rfl, rfl, rfl, rfl, booking.eventId.symm, ⟨result.eventName, context.traceId, ?_⟩, rfl⟩
      simp [payloadOf, booking.eventId]
    · rw [on] at off; cases off

theorem bookInTransaction_safe (h : During R t (Clean t) s) :
    (discipline R partition).Safe t (bookInTransaction config eventId dto context)
      (Leaves R t fun a => During R t fun s => ∃ outbox, Announced config a.1 outbox ∧
        Booked config eventId dto context t a.1 outbox s) s := by
  unfold bookInTransaction
  refine leaves_bind (decrement_safe h) fun result s₁ h₁ => ?_
  refine ask_bind h₁ (during_steady (owns_stable.and taken_stable)) (fun _ _ _ => by trivial) ?_
  intro s₂ c s₃ b _ h₂ _ he
  obtain ⟨act, -, row, rfl⟩ := insertBooking_ok he
  obtain ⟨owns, seats⟩ := h₂.now act
  have open_ : ((s₂.issue b.id t).setTx t
      { s₂.tx t with bookings := (s₂.tx t).bookings ++ [b] }).active t = true :=
    insert_active (active_iff.mp act)
  have booked : During R t (Booked config eventId dto context t b [])
      ((s₂.issue b.id t).setTx t { s₂.tx t with bookings := (s₂.tx t).bookings ++ [b] }) := by
    refine .of open_ ⟨?_, owns.insertBooking b, seats⟩
    rw [row]
    exact ⟨rfl, rfl, rfl, rfl, rfl⟩
  refine leaves_bind (P := fun _ => During R t fun s => ∃ outbox, Announced config b outbox ∧
    Booked config eventId dto context t b outbox s) ?_ fun _ _ h => h
  unfold runIf
  split
  · rename_i on
    exact enqueue_safe on booked
  · rename_i off
    exact During.of open_ ⟨[], ⟨fun on => absurd on off, fun _ => rfl⟩, booked.now open_⟩

theorem integrity_neutral : (integrity eventId).Only Neutral := by
  refine only_bind (by simp [Neutral]) fun row => ?_
  cases row with
  | none => trivial
  | some event => exact only_bind (by simp [Neutral]) fun _ => trivial

/-- What a book call asks for between its BEGIN and its COMMIT. -/
def Effect.books : Effect → Prop
  | .findEvent _ => True
  | .findEventForUpdate _ => True
  | .updateEvent .. => True
  | .insertBooking _ => True
  | .insertOutbox _ => True
  | .dateNow => True
  | _ => False

def Effect.seats : Effect → Prop
  | .findEvent _ => True
  | .findEventForUpdate _ => True
  | .updateEvent .. => True
  | _ => False

theorem decrement_seats {config : BookingConfig} {quantity : Nat} :
    (decrement config eventId quantity).Only Effect.seats := by
  have rounds : ∀ n, (optimisticRounds eventId quantity n).Only Effect.seats := by
    intro n
    induction n with
    | zero => trivial
    | succ n ih =>
      unfold optimisticRounds
      refine only_bind (by simp [Effect.seats]) fun row => ?_
      refine only_bind (only_ofExcept _) fun event => ?_
      refine only_bind (by simp [Effect.seats]) fun affected => ?_
      split
      · trivial
      · exact ih
  unfold decrement
  cases config.lockStrategy with
  | none =>
    refine only_bind (by simp [Effect.seats]) fun row => ?_
    refine only_bind (only_ofExcept _) fun event => ?_
    exact only_bind (by simp [Effect.seats]) fun _ => trivial
  | pessimistic =>
    refine only_bind (by simp [Effect.seats]) fun row => ?_
    refine only_bind (only_ofExcept _) fun event => ?_
    exact only_bind (by simp [Effect.seats]) fun _ => trivial
  | optimistic => exact rounds _

theorem decrement_books {config : BookingConfig} {quantity : Nat} :
    (decrement config eventId quantity).Only Effect.books := by
  refine only_mono (fun e he => ?_) decrement_seats
  cases e <;> first | exact trivial | exact he.elim

theorem bookInTransaction_books :
    (bookInTransaction config eventId dto context).Only Effect.books := by
  unfold bookInTransaction
  refine only_bind decrement_books fun result => ?_
  refine only_bind (by simp [Effect.books]) fun booking => ?_
  refine only_bind (only_runIf ?_) fun _ => trivial
  refine only_bind (only_bind (by simp [Effect.books]) fun _ => ?_) fun _ => trivial
  simp [Effect.books]

def Effect.wraps : Effect → Prop
  | .beginTx => True
  | .commitTx => True
  | .rollbackTx => True
  | .findEvent _ => True
  | .sumConfirmed _ => True
  | .bookingsTotal .. => True
  | .bookingsOversoldTotal _ => True
  | .delCache _ => True
  | .sendBatch _ => True
  | .exitSoon => True
  | _ => False

theorem integrity_wraps : (integrity eventId).Only Effect.wraps := by
  refine only_bind (by simp [Effect.wraps]) fun row => ?_
  cases row with
  | none => trivial
  | some event => exact only_bind (by simp [Effect.wraps]) fun _ => trivial

theorem afterCommit_wraps {booking : BookingRow} {result : Decremented} :
    (afterCommit config eventId context booking result).Only Effect.wraps := by
  unfold afterCommit
  refine only_bind (by simp [Effect.wraps]) fun _ => ?_
  refine only_bind (only_handle (by simp [Effect.wraps]) fun _ => trivial) fun _ => ?_
  refine only_bind (only_runIf (only_bind integrity_wraps fun _ => only_runIf ?_)) fun _ => ?_
  · simp [Effect.wraps]
  refine only_bind (only_runIf (by simp [Effect.wraps])) fun _ => ?_
  refine only_bind (only_runIf (only_handle ?_ fun _ => trivial)) fun _ => trivial
  simp [publish, publishBatch, send, Effect.wraps]

/-- All that a book call asks for. -/
theorem book_only {P : Effect → Prop}
    (inside : (bookInTransaction config eventId dto context).Only P) (wraps : ∀ e, e.wraps → P e) :
    (book config eventId dto context).Only P := by
  unfold book transaction
  refine only_handle (only_bind (only_handle ?_ fun x => ?_) fun a => ?_) fun x => ?_
  · refine only_bind ((only_await _).mpr (wraps _ trivial)) fun _ => only_bind inside fun _ => ?_
    exact only_bind ((only_await _).mpr (wraps _ trivial)) fun _ => trivial
  · refine only_bind (only_handle ?_ fun _ => trivial) fun _ => trivial
    exact (only_await _).mpr (wraps _ trivial)
  · exact only_mono wraps afterCommit_wraps
  · exact only_bind ((only_await _).mpr (wraps _ trivial)) fun _ => trivial

/-- A committed booking; the outbox does not announce it where it is published directly. -/
structure Confirmed (config : AppConfiguration) (b : BookingRow) (s : Store) : Prop where
  committed : b ∈ s.bookings
  unannounced : config.outbox.directPublishMode = true → b.id ∉ announced s

theorem confirmed_extends {b : BookingRow} {s s' : Store} (h : Confirmed config b s)
    (extended : Extends s s') : Confirmed config b s' := by
  constructor
  · exact extended.grows.bookings.subset h.committed
  · exact fun direct => extended.unannounced b h.committed (h.unannounced direct)

theorem commit_confirmed {b : BookingRow} {outbox : List OutboxRow} {event : Option Uuid}
    (inv : Consistent s) (owns : Owns t [b] outbox event [] s)
    (off : config.outbox.enqueues = false → outbox = []) :
    Confirmed config b (s.commitTx t) := by
  have bookings : (s.commitTx t).bookings = s.bookings ++ [b] :=
    congrArg (s.bookings ++ ·) owns.bookings
  constructor
  · rw [bookings]
    exact List.mem_append_right _ (List.mem_singleton_self b)
  · intro direct announces
    have silent : config.outbox.enqueues = false := by simp [OutboxConfig.enqueues, direct]
    rw [commit_announced inv.wf, owns.outbox, off silent, List.map_nil, List.append_nil] at announces
    have nodup := (commit_wf inv.wf (t := t)).bookings.nodup
    rw [bookings, List.map_append] at nodup
    exact List.disjoint_of_nodup_append nodup (inv.announced.subset announces)
      (List.mem_singleton_self b.id)

/-- After the COMMIT a book call is neutral, but for a direct publish of its booking. -/
theorem afterCommit_safe {b : BookingRow} {result : Decremented}
    (allowed : R.allowed (.book config eventId dto context)) (h : Confirmed config b s) :
    (discipline R partition).Safe t (afterCommit config eventId context b result)
      (fun _ _ => True) s := by
  have keeps : ∀ s s' : Store, Confirmed config b s → Extends s s' → Confirmed config b s' :=
    fun s s' => confirmed_extends
  have neutral : ∀ {p : Service Unit} {f : Unit → Service BookingResponse} {s : Store},
      p.Only Neutral → Confirmed config b s →
      (∀ s', Confirmed config b s' →
        (discipline R partition).Safe t (f ()) (fun _ _ => True) s') →
      (discipline R partition).Safe t (p >>= f) (fun _ _ => True) s := by
    intro p f s only hb rest
    apply Logic.Safe.bind
    refine (neutral_safe only keeps hb).mono fun r s' hb' => ?_
    cases r with
    | ok _ => exact rest s' hb'
    | error x => trivial
  unfold afterCommit
  refine neutral (by simp [Neutral]) h fun s₁ h₁ => ?_
  refine neutral (only_handle (by simp [Neutral]) fun _ => trivial) h₁ fun s₂ h₂ => ?_
  refine neutral (only_runIf (only_bind integrity_neutral fun _ => only_runIf (by simp [Neutral])))
    h₂ fun s₃ h₃ => ?_
  refine neutral (only_runIf (by simp [Neutral])) h₃ fun s₄ h₄ => ?_
  apply Logic.Safe.bind
  unfold runIf
  split
  · rename_i direct
    apply Logic.Safe.handle
    refine ask_safe h₄ (extends_steady keeps) (fun s _ hb => ?_) fun _ _ _ r _ _ _ _ => ?_
    · exact .direct config eventId dto context b result.eventName allowed direct hb.committed
        (hb.unannounced direct) rfl
    · cases r <;> trivial
  · trivial

theorem book_safe (allowed : R.allowed (.book config eventId dto context)) :
    (discipline R partition).Safe t (book config eventId dto context) (fun _ _ => True) s := by
  unfold book
  apply Logic.Safe.handle
  have last : ∀ (x : Err) s, (discipline R partition).Safe t
      (do ask (.bookingsTotal x.bookingResult config.booking.lockStrategy); throw x :
        Service BookingResponse) (fun _ _ => True) s :=
    fun x s => neutral_end (only_bind (by simp [Neutral]) fun _ => trivial) fun _ _ => trivial
  apply Logic.Safe.bind
  have stable : ∀ a : BookingRow × Decremented, Stable t fun s => ∃ outbox,
      Announced config a.1 outbox ∧ Booked config eventId dto context t a.1 outbox s := by
    rintro a s s' ⟨outbox, announced, booked⟩ f act
    exact ⟨outbox, announced, booked_stable s s' booked f act⟩
  refine (transaction_safe (J := fun _ => True) (Q := fun a s => Confirmed config a.1 s) trivial
    true_steady (fun _ _ _ _ _ => trivial) (fun _ _ => bookInTransaction_safe) stable ?_ ?_).mono ?_
  · rintro a s ⟨outbox, announced, booked⟩
    exact .book config eventId dto context a.1 outbox allowed booked.booking booked.owns
      booked.seats announced.1 announced.2
  · rintro a s ⟨outbox, announced, booked⟩ inv _
    exact commit_confirmed inv booked.owns announced.2
  · intro r s₁ hr
    cases r with
    | error x => exact last x s₁
    | ok a =>
      refine (afterCommit_safe allowed hr).mono fun r s₂ _ => ?_
      cases r with
      | ok _ => trivial
      | error x => exact last x s₂

end Overbook
