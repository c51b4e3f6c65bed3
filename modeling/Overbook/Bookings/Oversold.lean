import Overbook.Bookings.AllOrNothing
import Overbook.Bookings.Drift
import Overbook.Bookings.Prepared

/-! The metric `bookings_oversold_total`. A naive call looks at the seats again once it has
committed, and counts itself when more are sold than there are. -/
namespace Overbook

open Async Prog ReadCommitted Kafka Store

def Effect.uncounted : Effect → Prop
  | .bookingsOversoldTotal _ => False
  | _ => True

variable {partition : String → String → Nat} {R : Regime} {t : Tid} {p : ApiPool}
  {eventId id : Uuid} {entries : List ApiEntry} {events : List Exchange}
  {config : AppConfiguration} {dto : CreateBookingDto} {context : BookingContext}
  {b : BookingRow} {result : Decremented}

/-- What a call reads when it looks at the seats again. -/
def looked (eventId : Uuid) (event : EventRow) (n : Nat) : List Exchange :=
  [⟨.findEvent eventId, .ok (some event)⟩, ⟨.sumConfirmed eventId, .ok n⟩]

theorem counted_not_uncounted : ¬ Effect.uncounted (.bookingsOversoldTotal id) := fun no => no

theorem past_uncounted {α β : Type} {p : Service α} {f : α → Service β}
    (only : p.Only Effect.uncounted) (waits : Awaits (p >>= f) events (.bookingsOversoldTotal id)) :
    ∃ a first rest, Runs p first (.ok a) ∧ Awaits (f a) rest (.bookingsOversoldTotal id) ∧
      events = first ++ rest :=
  (awaits_bind waits).resolve_left fun inside => counted_not_uncounted (only.awaits inside)

theorem oversoldBy_pos {n : Nat} {total : Int} : 0 < max 0 ((n : Int) - total) ↔ total < n := by
  omega

theorem integrity_uncounted : (integrity eventId).Only Effect.uncounted := by
  refine only_bind (by simp [Effect.uncounted]) fun row => ?_
  cases row with
  | none => trivial
  | some event => exact only_bind (by simp [Effect.uncounted]) fun _ => trivial

theorem runs_record (run : Runs (recordOversoldIfAny eventId) events (.ok ())) :
    ∃ event n rest, events = looked eventId event n ++ rest ∧
      (event.totalSeats < n → ⟨.bookingsOversoldTotal eventId, .ok ()⟩ ∈ rest) := by
  obtain ⟨report, first, rest, reads, counts, rfl⟩ := runs_through run
  obtain ⟨event, n, rfl, rfl⟩ := runs_integrity reads
  refine ⟨event, n, rest, rfl, fun more => ?_⟩
  simp only [oversoldBy_pos, more, decide_true, runIf, if_true] at counts
  rw [runs_await counts]
  exact List.mem_singleton_self _

theorem awaits_record
    (waits : Awaits (recordOversoldIfAny eventId) events (.bookingsOversoldTotal id)) :
    id = eventId ∧ ∃ event n, events = looked eventId event n ∧ event.totalSeats < n := by
  obtain ⟨report, first, rest, reads, counts, rfl⟩ := past_uncounted integrity_uncounted waits
  obtain ⟨event, n, rfl, rfl⟩ := runs_integrity reads
  by_cases more : event.totalSeats < n
  · simp only [oversoldBy_pos, more, decide_true, runIf, if_true] at counts
    cases counts with
    | here => exact ⟨rfl, event, n, List.append_nil _, more⟩
    | @there _ _ _ r _ rest => cases r <;> cases rest
  · simp only [oversoldBy_pos, more, decide_false, runIf, Bool.false_eq_true, if_false] at counts
    cases counts

theorem early_unbegun {u v : Unit} {first second : List Exchange}
    (counted : Runs (ask (.bookingsTotal .confirmed config.booking.lockStrategy)) first (.ok u))
    (dropped : Runs (invalidateCache eventId) second (.ok v)) :
    ∀ y ∈ first ++ second, y.1 ≠ .beginTx := by
  intro y hy
  rcases List.mem_append.mp hy with hy | hy
  · exact runs_only (P := (· ≠ .beginTx)) counted ((only_await _).mpr (by simp)) y hy
  · exact runs_only (P := (· ≠ .beginTx)) dropped (only_handle (by simp) fun _ => trivial) y hy

theorem runs_afterCommit_naive {response : BookingResponse}
    (naive : config.booking.lockStrategy = .none)
    (run : Runs (afterCommit config eventId context b result) events (.ok response)) :
    ∃ early event n rest, events = early ++ (looked eventId event n ++ rest) ∧
      (∀ y ∈ early, y.1 ≠ .beginTx) ∧
      (event.totalSeats < n → ⟨.bookingsOversoldTotal eventId, .ok ()⟩ ∈ rest) := by
  obtain ⟨_, first, _, counted, run₁, rfl⟩ := runs_through run
  obtain ⟨_, second, _, dropped, run₂, rfl⟩ := runs_through run₁
  obtain ⟨_, third, rest, recorded, -, rfl⟩ := runs_through run₂
  simp only [naive, decide_true, runIf, if_true] at recorded
  obtain ⟨event, n, tail, rfl, more⟩ := runs_record recorded
  exact ⟨first ++ second, event, n, tail ++ rest, by simp, early_unbegun counted dropped,
    fun sold => List.mem_append_left _ (more sold)⟩

theorem awaits_afterCommit (waits : Awaits (afterCommit config eventId context b result) events
      (.bookingsOversoldTotal id)) :
    id = eventId ∧ ∃ early event n, events = early ++ looked eventId event n ∧
      (∀ y ∈ early, y.1 ≠ .beginTx) ∧ event.totalSeats < n := by
  have other : (invalidateCache eventId).Only Effect.uncounted :=
    only_handle (by simp [Effect.uncounted]) fun _ => trivial
  obtain ⟨_, first, _, counted, waits₁, rfl⟩ :=
    past_uncounted (by simp [Effect.uncounted]) waits
  obtain ⟨_, second, _, dropped, waits₂, rfl⟩ := past_uncounted other waits₁
  rcases awaits_bind waits₂ with inside | ⟨_, _, _, -, later, -⟩
  · by_cases naive : config.booking.lockStrategy = .none
    · simp only [naive, decide_true, runIf, if_true] at inside
      obtain ⟨rfl, event, n, rfl, more⟩ := awaits_record inside
      exact ⟨rfl, first ++ second, event, n, by simp, early_unbegun counted dropped, more⟩
    · simp only [naive, decide_false, runIf, Bool.false_eq_true, if_false] at inside
      cases inside
  · refine absurd (Only.awaits ?_ later) counted_not_uncounted
    refine only_bind (only_runIf (by simp [Effect.uncounted])) fun _ => ?_
    refine only_bind (only_runIf (only_handle ?_ fun _ => trivial)) fun _ => trivial
    simp [publish, publishBatch, send, Effect.uncounted]

theorem transaction_uncounted :
    (transaction (bookInTransaction config eventId dto context)).Only Effect.uncounted := by
  refine only_handle (only_bind (by simp [Effect.uncounted]) fun _ => ?_) fun _ => ?_
  · refine only_bind (only_mono (fun e books => ?_) bookInTransaction_books) fun _ => ?_
    · cases e <;> trivial
    · exact only_bind (by simp [Effect.uncounted]) fun _ => trivial
  · exact only_bind (only_handle (by simp [Effect.uncounted]) fun _ => trivial) fun _ => trivial

/-- A book call counts an oversell of its own event only, after its COMMIT and a second look. -/
theorem awaits_book
    (waits : Awaits (book config eventId dto context) events (.bookingsOversoldTotal id)) :
    id = eventId ∧ ∃ before u early event n,
      events = before ++ ⟨.commitTx, .ok u⟩ :: (early ++ looked eventId event n) ∧
      (∀ y ∈ early, y.1 ≠ .beginTx) ∧ event.totalSeats < n := by
  rcases awaits_handle waits with inside | ⟨x, _, _, -, caught, -⟩
  · obtain ⟨a, first, rest, committed, after, rfl⟩ := past_uncounted transaction_uncounted inside
    obtain ⟨rfl, early, event, n, rfl, quiet, more⟩ := awaits_afterCommit after
    rcases runs_transaction bookInTransaction_aside committed with
      ⟨_, u, v, inner, -, rfl, -⟩ | ⟨⟨x, other⟩, -⟩
    · exact ⟨rfl, ⟨.beginTx, .ok u⟩ :: inner, v, early, event, n, by simp, quiet, more⟩
    · cases other
  · have told : (do ask (.bookingsTotal x.bookingResult config.booking.lockStrategy); throw x :
        Service BookingResponse).Only Effect.uncounted :=
      only_bind (by simp [Effect.uncounted]) fun _ => trivial
    exact absurd (told.awaits caught) counted_not_uncounted

theorem drain_uncounted {config : OutboxConfig} {replica : Replica} :
    (drainOnce config replica).Only Effect.uncounted := by
  refine only_bind (by simp [Effect.uncounted]) fun running => ?_
  split
  · trivial
  · refine only_ensure (only_handle ?_ fun x => ?_) (by simp [Effect.uncounted])
    · refine only_bind (by simp [Effect.uncounted]) fun _ => only_bind ?_ fun _ => ?_
      · refine only_mono (fun e drains => ?_) drainBatch_drains
        cases e <;> trivial
      · exact only_bind (by simp [Effect.uncounted]) fun _ => trivial
    · exact only_bind (only_handle (by simp [Effect.uncounted]) fun _ => trivial) fun _ => trivial

theorem awaits_code {j : Job} (waits : Awaits j.code events (.bookingsOversoldTotal id)) :
    ∃ before u early event n,
      events = before ++ ⟨.commitTx, .ok u⟩ :: (early ++ looked id event n) ∧
      (∀ y ∈ early, y.1 ≠ .beginTx) ∧ event.totalSeats < n := by
  cases j with
  | create dto =>
    have only : (Job.code (.create dto)).Only Effect.uncounted :=
      only_bind (by simp [create, Effect.uncounted]) fun _ => trivial
    exact absurd (only.awaits waits) counted_not_uncounted
  | book config eventId dto context =>
    rcases awaits_bind waits with inside | ⟨_, _, _, -, returned, -⟩
    · obtain ⟨rfl, looks⟩ := awaits_book inside
      exact looks
    · cases returned
  | integrity eventId =>
    have only : (Job.code (.integrity eventId)).Only Effect.uncounted :=
      only_bind integrity_uncounted fun _ => trivial
    exact absurd (only.awaits waits) counted_not_uncounted
  | drainOnce config replica =>
    have only : (Job.code (.drainOnce config replica)).Only Effect.uncounted :=
      only_bind drain_uncounted fun _ => trivial
    exact absurd (only.awaits waits) counted_not_uncounted

/-- A transaction is closed by its COMMIT, and stays closed until the task begins another. -/
theorem idle_since {Ok : ApiPool → Act Job Choice Ext → Prop} {before after : List Exchange} {u : Unit}
    (h : (api partition).History Ok migrated entries p)
    (split : eventsOf t entries = before ++ ⟨.commitTx, .ok u⟩ :: after)
    (quiet : ∀ y ∈ after, y.1 ≠ .beginTx) : p.shared.active t = false := by
  induction h generalizing after with
  | refl => simp [eventsOf, entriesOf] at split
  | @step entries q q' a past ok st ih =>
    have same : (api partition).logged q a = [] → q.shared.active t = false := by
      intro none
      rw [none, List.append_nil] at split
      exact ih split quiet
    cases Machine.steps_of_step st with
    | start =>
      rw [Machine.put, settle_shared]
      exact same rfl
    | kill live => exact same rfl
    | @step t' c j e k s r live answered =>
      rw [Machine.put, settle_shared]
      rw [Machine.logged_step live answered] at split
      have touch := exec_touch answered
      by_cases own : t = t'
      · subst own
        rw [eventsOf_own entries (⟨t, e, r, q.shared, s⟩ : ApiEntry)] at split
        rcases List.eq_nil_or_concat after with rfl | ⟨after, y, rfl⟩
        · obtain ⟨-, last⟩ := List.append_inj' split rfl
          cases last
          obtain ⟨-, rfl⟩ := commit_ok answered
          simp [commitTx, active]
        · rw [List.concat_eq_append, ← List.cons_append, ← List.append_assoc] at split
          obtain ⟨earlier, last⟩ := List.append_inj' split rfl
          cases last
          have before := ih earlier fun y hy => quiet y (by simp [hy])
          by_contra act
          have open' := active_before touch (quiet ⟨e, r⟩ (by simp)) (by simpa using act)
          rw [before] at open'
          cases open'
      · rw [eventsOf_other (by exact Ne.symm own)] at split
        rw [active_congr (touch_tx own touch)]
        exact ih split quiet
    | @env x s happened =>
      have before := same rfl
      cases x with
      | tick d =>
        cases Option.some.inj happened
        exact before
      | abortTx t' =>
        cases Option.some.inj happened
        by_contra act
        rw [← active_congr ((frame_abort t').tx (by simpa using act))] at before
        exact act before

theorem looked_heard {before early after : List Exchange} {u : Unit} {event : EventRow} {n : Nat}
    (run : (api partition).History R.Ok migrated entries p)
    (split : eventsOf t entries = before ++ ⟨.commitTx, .ok u⟩ ::
      (early ++ (looked eventId event n ++ after)))
    (quiet : ∀ y ∈ early, y.1 ≠ .beginTx) :
    ∃ first x between y last, entries = first ++ x :: (between ++ y :: last) ∧
      eventsOf t first = before ++ ⟨.commitTx, .ok u⟩ :: early ∧ x.task = t ∧
      x.effect = .findEvent eventId ∧ y.task = t ∧ y.effect = .sumConfirmed eventId ∧
      Heard eventId event n x.before y.before p.shared := by
  have reads : eventsOf t entries = (before ++ ⟨.commitTx, .ok u⟩ :: early) ++
      ⟨.findEvent eventId, .ok (some event)⟩ :: ⟨.sumConfirmed eventId, .ok n⟩ :: after := by
    simp [split, looked]
  exact heard run reads fun first r start earlier => idle_since start earlier quiet

theorem counted_oversold {z : ApiEntry} (run : (api partition).History R.Ok migrated entries p)
    (mem : z ∈ entries) (counts : z.effect = .bookingsOversoldTotal eventId) :
    ∃ c, p.shared.events eventId = some c ∧
      c.committed.totalSeats < confirmedQuantity eventId p.shared.bookings := by
  obtain ⟨first, last, rfl⟩ := List.append_of_mem mem
  obtain ⟨r, j, k, c, past, -, live, -, -, later⟩ := run.split
  have tracks := past.tracks z.task
  rw [live] at tracks
  obtain ⟨t, e, o, s, s'⟩ := z
  cases counts
  obtain ⟨before, u, early, event, n, split, quiet, more⟩ := awaits_code tracks.awaits
  have reads : eventsOf t first =
      before ++ ⟨.commitTx, .ok u⟩ :: (early ++ (looked eventId event n ++ [])) := by
    rw [List.append_nil]
    exact split
  obtain ⟨_, _, _, _, _, -, -, -, -, -, -, heard⟩ := looked_heard past reads quiet
  obtain ⟨c, row, size⟩ := heard.size
  obtain ⟨c', row', same⟩ := sizes_kept past.reach later eventId c row
  refine ⟨c', row', ?_⟩
  have sold := heard.most.trans (sold_grows (api_grows past.reach later))
  rw [same, size]
  omega

theorem grows_after {first last : List ApiEntry} {w : ApiEntry}
    (run : (api partition).History R.Ok migrated (first ++ w :: last) p) :
    w.after.bookings <+: p.shared.bookings := by
  generalize whole : first ++ w :: last = entries at run
  induction run generalizing last with
  | refl => simp at whole
  | @step entries q q' a past ok st ih =>
    have on : ∀ last', first ++ w :: last' = entries → w.after.bookings <+: q'.shared.bookings :=
      fun last' part => (ih part).trans (api_grows past.reach (.step .refl ok st)).bookings
    have quiet : (api partition).logged q a = [] → w.after.bookings <+: q'.shared.bookings :=
      fun none => on last (by rw [whole, none, List.append_nil])
    cases Machine.steps_of_step st with
    | @step t c j e k s r live answered =>
      rw [Machine.logged_step live answered] at whole
      rcases List.eq_nil_or_concat last with rfl | ⟨last', y, rfl⟩
      · obtain ⟨-, same⟩ := List.append_inj' whole rfl
        cases List.singleton_inj.mp same
        simp [Machine.put, settle_shared]
      · rw [List.concat_eq_append, ← List.cons_append, ← List.append_assoc] at whole
        exact on last' (List.append_inj' whole rfl).1
    | start => exact quiet rfl
    | kill => exact quiet rfl
    | env => exact quiet rfl

/-- A naive call that has returned has counted, if its COMMIT left more seats sold than there are. -/
theorem oversold_counted {response : BookingResponse}
    (run : (api partition).History R.Ok migrated entries p)
    (naive : config.booking.lockStrategy = .none)
    (ended : p.slot t = .ended (.book config eventId dto context) (.ok (.booked response))) :
    ∃ first w last, entries = first ++ w :: last ∧ w.task = t ∧ w.event = ⟨.commitTx, .ok ()⟩ ∧
      ∀ c, p.shared.events eventId = some c →
        c.committed.totalSeats < confirmedQuantity eventId w.after.bookings →
          ∃ z ∈ last, z.task = t ∧ z.effect = .bookingsOversoldTotal eventId := by
  obtain ⟨o, booked, responds⟩ := runs_code (run.runs ended)
  cases responds
  have goes := runs_book booked
  generalize split : eventsOf t entries = events at goes
  cases goes with
  | @sold a u v inner after _ worked returned =>
    obtain ⟨early, event, n, rest, rfl, quiet, counts⟩ := runs_afterCommit_naive naive returned
    obtain ⟨part, x, between, y, last, rfl, earlier, -, -, -, -, heard⟩ :=
      looked_heard run split quiet
    obtain ⟨first, w, middle, rfl, rfl, committed, begun, -⟩ := eventsOf_split earlier
    refine ⟨first, w, middle ++ x :: (between ++ y :: last), by simp, rfl, committed,
      fun c row oversold => ?_⟩
    obtain ⟨c', row', size⟩ := heard.size
    cases Option.some.inj (row.symm.trans row')
    obtain ⟨r, past, before, -⟩ := run.since
    have sold : confirmedQuantity eventId w.after.bookings ≤
        confirmedQuantity eventId x.before.bookings := by
      rw [← before]
      exact confirmedQuantity_prefix (grows_after past)
    have more : event.totalSeats < n := by
      have least := heard.least
      omega
    rw [List.append_assoc, List.cons_append, eventsOf_append, begun, eventsOf_cons,
      committed] at split
    have tail := (List.cons.inj (List.append_cancel_left split)).2
    have mem : (⟨.bookingsOversoldTotal eventId, .ok ()⟩ : Exchange) ∈
        eventsOf w.task (middle ++ x :: (between ++ y :: last)) := by
      simp [tail, counts more]
    obtain ⟨z, hz, same⟩ := List.mem_map.mp mem
    obtain ⟨there, own⟩ := List.mem_filter.mp hz
    exact ⟨z, there, by simpa using own, congrArg (·.1) same⟩

/-- Under any mix of strategies: the metric of an event is counted only where more seats are sold
than there are, which stays so; and a naive call that returns has counted wherever its own COMMIT
left the event oversold. -/
theorem oversold_metric (partition : String → String → Nat) (R : Regime) (entries : List ApiEntry)
    (p : ApiPool) (run : (api partition).History R.Ok migrated entries p) (eventId : Uuid) :
    (∀ z ∈ entries, z.effect = .bookingsOversoldTotal eventId →
      ∃ c, p.shared.events eventId = some c ∧
        c.committed.totalSeats < confirmedQuantity eventId p.shared.bookings) ∧
    ∀ t config dto context response, config.booking.lockStrategy = .none →
      p.slot t = .ended (.book config eventId dto context) (.ok (.booked response)) →
      ∃ first w last, entries = first ++ w :: last ∧ w.task = t ∧ w.event = ⟨.commitTx, .ok ()⟩ ∧
        ∀ c, p.shared.events eventId = some c →
          c.committed.totalSeats < confirmedQuantity eventId w.after.bookings →
            ∃ z ∈ last, z.task = t ∧ z.effect = .bookingsOversoldTotal eventId := by
  constructor
  · intro z mem counts
    exact counted_oversold run mem counts
  · intro t config dto context response naive ended
    exact oversold_counted run naive ended

theorem any_fine (q : ApiPool) (a : Act Job Choice Ext) : (Regime.any fun _ => True).Ok q a := by
  cases a with
  | start t j => trivial
  | step t c => exact fun _ _ _ _ => trivial
  | kill t => trivial
  | env x => cases x <;> trivial

/- The second of the two calls looks again, and counts. -/
def soldAndCounted : List (Act Job Choice Ext) := soldTwice ++ List.replicate 5 (.step 2 .ok)

theorem oversold_metric_second : ∃ (entries : List ApiEntry) (p : ApiPool) (c : Cell EventRow),
    p.shared.events "e" = some c ∧ c.committed.totalSeats < confirmedQuantity "e" p.shared.bookings ∧
      ∃ z ∈ entries, z.task = 2 ∧ z.effect = .bookingsOversoldTotal "e" := by
  have replay : ((api fun _ _ => 0).replay (fun _ _ => true) migrated soldAndCounted).map (fun x =>
      (x.2.slot 2, (x.2.shared.events "e").map (·.committed.totalSeats),
        x.1.all fun w => w.task != 2 || !Exchange.commits w.event ||
          confirmedQuantity "e" w.after.bookings == 2)) =
      some (.ended (.book unlocked "e" oneSeat {}) (.ok (.booked
        { id := "c", eventId := "e", userId := "user-1", quantity := 1, status := .confirmed
          seatsRemaining := 0, lockStrategy := .none, createdAt := 0 })), some 1, true) := by rfl
  obtain ⟨⟨entries, p⟩, replayed, seen⟩ := Option.map_eq_some_iff.mp replay
  simp only [Prod.mk.injEq] at seen
  obtain ⟨ended, size, both⟩ := seen
  obtain ⟨c, row, one⟩ := Option.map_eq_some_iff.mp size
  have history : (api fun _ _ => 0).History (Regime.any fun _ => True).Ok migrated entries p :=
    Machine.History.of_replay (fun q a _ => any_fine q a) .refl replayed
  obtain ⟨real, counted⟩ := oversold_metric (fun _ _ => 0) _ entries p history "e"
  obtain ⟨first, w, last, whole, mine, event, counts⟩ := counted 2 unlocked oneSeat {} _ rfl ended
  have two := List.all_eq_true.mp both w (by simp [whole])
  rw [mine, event] at two
  have sold : confirmedQuantity "e" w.after.bookings = 2 := by simpa [Exchange.commits] using two
  obtain ⟨z, late, own, effect⟩ := counts c row (by omega)
  have mem : z ∈ entries := by simp [whole, late]
  obtain ⟨c', row', more⟩ := real z mem effect
  exact ⟨entries, p, c', row', more, z, mem, own, effect⟩

end Overbook
