import Overbook.Async.Linearizable
import Overbook.Bookings.Verdicts

/-! Booking is linearizable under the safe strategies: a sale takes its turn at the COMMIT, a
refusal when it is answered, by which time no seat has come back. -/
namespace Overbook

open Async Prog ReadCommitted Store GeneratedKeys

/-- The sequential counter: the seats that are left, and what one call gets. -/
def sell (remaining : Int) (quantity : Nat) : Int × Verdict :=
  if (quantity : Int) ≤ remaining then (remaining - quantity, .confirmed (remaining - quantity))
  else (remaining, .soldOut)

variable {partition : String → String → Nat} {jobs : Tid → Option Job} {eventId : Uuid}
  {total : Int} {p q : ApiPool} {s s' : Store} {t : Tid}

/-- The log of one event: who has booked, in the order of the bookings, and who was refused. -/
structure Counted (eventId : Uuid) (total : Int) (p : ApiPool) (log : List (Tid × Nat)) :
    Prop where
  once : (log.map Prod.fst).Nodup
  calls : ∀ t quantity, (t, quantity) ∈ log →
    ∃ j, (p.slot t).job = some j ∧ bookCall eventId j = some quantity
  entered : ∀ x ∈ log, (∃ b ∈ p.shared.bookings, b.eventId = eventId ∧
    (b.id, x.1) ∈ p.shared.issued) ∨ ∃ j, p.slot x.1 = .ended j (.error soldOut)
  left : served sell total log = total - confirmedQuantity eventId p.shared.bookings
  sales : ∀ before b t, before ++ [b] <+: p.shared.bookings → b.eventId = eventId →
    (b.id, t) ∈ p.shared.issued →
    (t, .confirmed (total - confirmedQuantity eventId (before ++ [b]))) ∈ replies sell total log
  refusals : ∀ t j quantity, p.slot t = .ended j (.error soldOut) →
    bookCall eventId j = some quantity → (t, .soldOut) ∈ replies sell total log

/- Before the event exists nobody has booked it. -/
def Logged (eventId : Uuid) (p : ApiPool) (log : List (Tid × Nat)) : Prop :=
  match p.shared.events eventId with
  | none => log = []
  | some c => Counted eventId c.committed.totalSeats p log

theorem logged_some {c : Cell EventRow} {log : List (Tid × Nat)}
    (row : p.shared.events eventId = some c) :
    Logged eventId p log ↔ Counted eventId c.committed.totalSeats p log := by
  simp only [Logged, row]

theorem logged_none {log : List (Tid × Nat)} (row : p.shared.events eventId = none) :
    Logged eventId p log ↔ log = [] := by simp only [Logged, row]

theorem sell_enough {remaining : Int} {quantity : Nat} (enough : (quantity : Int) ≤ remaining) :
    sell remaining quantity = (remaining - quantity, .confirmed (remaining - quantity)) :=
  if_pos enough

theorem sell_short {remaining : Int} {quantity : Nat} (less : remaining < (quantity : Int)) :
    sell remaining quantity = (remaining, .soldOut) := if_neg (Int.not_le.mpr less)

theorem confirmedQuantity_snoc {bookings : List BookingRow} {b : BookingRow} :
    confirmedQuantity eventId (bookings ++ [b]) = confirmedQuantity eventId bookings +
      if b.eventId = eventId ∧ b.status = .confirmed then b.quantity else 0 := by
  by_cases mine : b.eventId = eventId ∧ b.status = .confirmed
  · simp [confirmedQuantity, List.filter_append, mine.1, mine.2]
  · simp [confirmedQuantity, List.filter_append, mine]

/-- The first phase of a step: the store moves on, by a COMMIT or otherwise. -/
structure Moved (jobs : Tid → Option Job) (t : Tid) (s s' : Store) : Prop where
  kept : SeatsKept s
  kept' : SeatsKept s'
  wf : WF s
  wf' : WF s'
  lasts : Lasts s s'
  change : s'.bookings = s.bookings ∨ ∃ b j, s'.bookings = s.bookings ++ [b] ∧
    b.status = .confirmed ∧ (b.id, t) ∈ s.issued ∧ jobs t = some j ∧
    bookCall b.eventId j = some b.quantity ∧ (s.events b.eventId).isSome = true ∧ Unbooked t s

theorem issuer_grows (wf : WF s) (wf' : WF s') (grows : Grows s s') {b : BookingRow}
    (hb : b ∈ s.bookings) {t' : Tid} (issued : (b.id, t') ∈ s'.issued) : (b.id, t') ∈ s.issued := by
  obtain ⟨x, hx, same⟩ := List.mem_map.mp (wf.bookings.known b.id (List.mem_map_of_mem hb))
  have both : (b.id, x.2) ∈ s'.issued := by
    rw [← same]
    exact grows.issued.subset hx
  rw [owner_unique wf'.once issued both, ← same]
  exact hx

theorem issuer_kept (h : Moved jobs t s s') {b : BookingRow} (hb : b ∈ s.bookings) {t' : Tid}
    (issued : (b.id, t') ∈ s'.issued) : (b.id, t') ∈ s.issued :=
  issuer_grows h.wf h.wf' h.lasts.grows hb issued

/-- A step that adds no booking of this event leaves its log as it is. -/
theorem Counted.still {slot : Tid → Slot Job Effect Effect.Answer Err Response}
    {log : List (Tid × Nat)} (h : Counted eventId total ⟨s, slot⟩ log) (moved : Moved jobs t s s')
    (same : ∀ b ∈ s'.bookings, b.eventId = eventId → b ∈ s.bookings)
    (sums : confirmedQuantity eventId s'.bookings = confirmedQuantity eventId s.bookings) :
    Counted eventId total ⟨s', slot⟩ log := by
  have grows := moved.lasts.grows
  refine { h with entered := fun x hx => ?_, left := ?_, sales := fun before b t' old event issued => ?_ }
  · refine (h.entered x hx).imp_left fun ⟨b, hb, event, issued⟩ => ?_
    exact ⟨b, grows.bookings.subset hb, event, grows.issued.subset issued⟩
  · rw [sums]
    exact h.left
  · have hb := same b (old.subset (by simp)) event
    have short : before ++ [b] <+: s.bookings := by
      refine List.prefix_of_prefix_length_le old grows.bookings ?_
      -- a longer prefix would end in a booking that is new
      by_contra long
      obtain ⟨rest, whole⟩ := grows.bookings
      have tail : s.bookings <+: before := by
        refine List.prefix_of_prefix_length_le grows.bookings
          ((List.prefix_append before [b]).trans old) ?_
        simp only [List.length_append, List.length_singleton] at long
        omega
      have nodup := moved.wf'.bookings.nodup
      obtain ⟨more, eq⟩ := old
      rw [← eq, List.map_append, List.map_append, List.append_assoc] at nodup
      exact List.disjoint_of_nodup_append nodup (List.mem_map_of_mem (tail.subset hb)) (by simp)
    exact h.sales before b t' short event (issuer_kept moved hb issued)

abbrev Slots := Tid → Slot Job Effect Effect.Answer Err Response

/-- The turn of a sale is its COMMIT: the seats that are left then are those of the counter. -/
theorem Counted.sale {slot : Slots} {log : List (Tid × Nat)} {b : BookingRow} {j : Job}
    (h : Counted eventId total ⟨s, slot⟩ log) (moved : Moved jobs t s s')
    (bookings : s'.bookings = s.bookings ++ [b]) (status : b.status = .confirmed)
    (event : b.eventId = eventId) (issued : (b.id, t) ∈ s.issued) (job : (slot t).job = some j)
    (call : bookCall eventId j = some b.quantity) (absent : t ∉ log.map Prod.fst)
    (enough : (b.quantity : Int) ≤ total - confirmedQuantity eventId s.bookings) :
    Counted eventId total ⟨s', slot⟩ (log ++ [(t, b.quantity)]) := by
  have grows := moved.lasts.grows
  have sums : confirmedQuantity eventId (s.bookings ++ [b]) =
      confirmedQuantity eventId s.bookings + b.quantity := by
    rw [confirmedQuantity_snoc, if_pos ⟨event, status⟩]
  have turn : sell (served sell total log) b.quantity =
      (total - confirmedQuantity eventId (s.bookings ++ [b]),
        .confirmed (total - confirmedQuantity eventId (s.bookings ++ [b]))) := by
    have left := h.left
    rw [left, sell_enough enough, sums]
    congr 1 <;> first | (congr 1; push_cast; omega) | (push_cast; omega)
  constructor
  · rw [List.map_append, List.map_singleton, List.nodup_append]
    refine ⟨h.once, List.nodup_singleton t, fun x hx y hy same => absent ?_⟩
    have eq : y = t := List.mem_singleton.mp hy
    rw [← eq, ← same]
    exact hx
  · intro t' quantity mem
    rcases List.mem_append.mp mem with mem | mem
    · exact h.calls t' quantity mem
    · cases List.mem_singleton.mp mem
      exact ⟨j, job, call⟩
  · intro x hx
    rcases List.mem_append.mp hx with hx | hx
    · refine (h.entered x hx).imp_left fun ⟨b, hb, event, issued⟩ => ?_
      exact ⟨b, grows.bookings.subset hb, event, grows.issued.subset issued⟩
    · cases List.mem_singleton.mp hx
      refine .inl ⟨b, ?_, event, grows.issued.subset issued⟩
      change b ∈ s'.bookings
      rw [bookings]
      exact List.mem_append_right _ (List.mem_singleton_self b)
  · rw [served_snoc, turn, bookings]
  · intro before b' t' old event' issued'
    rw [replies_snoc, turn]
    rw [bookings] at old
    rcases List.prefix_concat_iff.mp old with whole | old
    · obtain ⟨rfl, last⟩ := List.append_inj' whole rfl
      cases List.singleton_inj.mp last
      have mine : t' = t :=
        owner_unique moved.wf'.once issued' (grows.issued.subset issued)
      rw [mine]
      exact List.mem_append_right _ (List.mem_singleton_self _)
    · have hb : b' ∈ s.bookings := old.subset (by simp)
      exact List.mem_append_left _ (h.sales before b' t' old event' (issuer_kept moved hb issued'))
  · intro t' j' quantity ended call'
    rw [replies_snoc]
    exact List.mem_append_left _ (h.refusals t' j' quantity ended call')

/-- A task goes on, or settles without being refused. -/
theorem Counted.goes {slot : Slots} {log : List (Tid × Nat)}
    {new : Slot Job Effect Effect.Answer Err Response}
    (h : Counted eventId total ⟨s, slot⟩ log)
    (job : ∀ j, (slot t).job = some j → new.job = some j)
    (live : ∀ j, slot t ≠ .ended j (.error soldOut))
    (quiet : ∀ j quantity, new = .ended j (.error soldOut) → bookCall eventId j ≠ some quantity) :
    Counted eventId total ⟨s, Function.update slot t new⟩ log := by
  have other : ∀ t', t' ≠ t → Function.update slot t new t' = slot t' :=
    fun t' ne => Function.update_of_ne ne ..
  refine ⟨h.once, fun t' quantity mem => ?_, fun x hx => ?_, h.left, h.sales, ?_⟩
  · obtain ⟨j, had, call⟩ := h.calls t' quantity mem
    refine ⟨j, ?_, call⟩
    by_cases same : t' = t
    · subst same
      exact (congrArg Slot.job (Function.update_self t' new slot)).trans (job j had)
    · exact (congrArg Slot.job (other t' same)).trans had
  · refine (h.entered x hx).imp_right fun ⟨j, ended⟩ => ⟨j, ?_⟩
    have ne : x.1 ≠ t := by
      rintro rfl
      exact live j ended
    exact (other x.1 ne).trans ended
  · intro t' j quantity ended call
    by_cases same : t' = t
    · subst same
      exact absurd call (quiet j quantity ((Function.update_self t' new slot).symm.trans ended))
    · exact h.refusals t' j quantity ((other t' same).symm.trans ended) call

/-- The turn of a refusal is its answer: seats were short before, and never come back. -/
theorem Counted.refusal {slot : Slots} {log : List (Tid × Nat)} {j : Job} {quantity : Nat}
    (h : Counted eventId total ⟨s, slot⟩ log) (absent : t ∉ log.map Prod.fst)
    (call : bookCall eventId j = some quantity)
    (short : total - confirmedQuantity eventId s.bookings < (quantity : Int)) :
    Counted eventId total ⟨s, Function.update slot t (.ended j (.error soldOut))⟩
      (log ++ [(t, quantity)]) := by
  have other : ∀ t', t' ≠ t →
      Function.update slot t (.ended j (.error soldOut)) t' = slot t' :=
    fun t' ne => Function.update_of_ne ne ..
  have ne : ∀ x ∈ log, x.1 ≠ t := by
    rintro x hx rfl
    exact absent (List.mem_map_of_mem hx)
  have turn : sell (served sell total log) quantity =
      (total - confirmedQuantity eventId s.bookings, .soldOut) := by
    rw [h.left, sell_short short]
  constructor
  · rw [List.map_append, List.map_singleton, List.nodup_append]
    refine ⟨h.once, List.nodup_singleton t, fun x hx y hy same => absent ?_⟩
    have eq : y = t := List.mem_singleton.mp hy
    rw [← eq, ← same]
    exact hx
  · intro t' quantity' mem
    rcases List.mem_append.mp mem with mem | mem
    · obtain ⟨j', had, call'⟩ := h.calls t' quantity' mem
      exact ⟨j', (congrArg Slot.job (other t' (ne _ mem))).trans had, call'⟩
    · cases List.mem_singleton.mp mem
      exact ⟨j, congrArg Slot.job (Function.update_self t (.ended j (.error soldOut)) slot), call⟩
  · intro x hx
    rcases List.mem_append.mp hx with hx | hx
    · refine (h.entered x hx).imp_right fun ⟨j', ended⟩ => ⟨j', ?_⟩
      exact (other x.1 (ne x hx)).trans ended
    · cases List.mem_singleton.mp hx
      exact .inr ⟨j, Function.update_self ..⟩
  · rw [served_snoc, turn]
  · intro before b t' old event issued
    rw [replies_snoc]
    exact List.mem_append_left _ (h.sales before b t' old event issued)
  · intro t' j' quantity' ended call'
    rw [replies_snoc, turn]
    by_cases same : t' = t
    · subst same
      have eq : Slot.ended j (.error soldOut) = .ended j' (.error soldOut) :=
        (Function.update_self t' _ slot).symm.trans ended
      cases eq
      cases Option.some.inj (call.symm.trans call')
      exact List.mem_append_right _ (List.mem_singleton_self _)
    · refine List.mem_append_left _ (h.refusals t' j' quantity' ?_ call')
      exact (other t' same).symm.trans ended

/-- The safe strategies, each task started with the job that it has in `jobs`. -/
def Assigned (jobs : Tid → Option Job) (p : ApiPool) (a : Act Job Choice Ext) : Prop :=
  locking.Ok p a ∧ ∀ t j, a = .start t j → jobs t = some j

theorem ledger_sound (run : (api partition).Reach (Assigned jobs) migrated p) :
    Logic.Sound (ledger jobs partition).logic (fun t j r s => True ∧ Told t j r s) p := by
  refine Logic.reach_sound (ledger_verified jobs partition) (Logic.initial_sound ?_ fun t => ?_) run
  · exact ⟨empty_consistent, ⟨fun _ h => (nomatch h), fun _ _ h => nomatch h⟩⟩
  · exact ⟨⟨rfl, fun _ h => nomatch h⟩, fun _ h => nomatch h⟩

theorem told_stable {j : Job} {r : Except Err Response} (h : Told t j r s) (f : Spared t s s') :
    Told t j r s' := by
  cases j with
  | book config eventId dto context =>
    cases r with
    | ok response =>
      cases response with
      | booked response => exact Sold.lasts h f.lasts
      | _ => trivial
    | error x =>
      intro refused
      obtain ⟨short, free⟩ := h refused
      exact ⟨short.lasts f.lasts, free.spared f⟩
  | _ => trivial

/-- What the settled calls have told goes on to be true. -/
theorem told_always (run : (api partition).Reach (Assigned jobs) migrated p) {j : Job}
    {r : Except Err Response} (ended : p.slot t = .ended j r) : Told t j r p.shared := by
  refine (Logic.answers_last (ledger_verified jobs partition) (ledger_sound .refl) run ?_ ?_ ?_
    ended).2
  · exact fun t j r s s' h f => ⟨trivial, told_stable h.2 f.2⟩
  · exact fun t j r s _ h => h
  · exact fun t j r none => nomatch none

/-- Every step of the pool keeps what lasts. -/
theorem ledger_lasts {a : Act Job Choice Ext}
    (run : (api partition).Reach (Assigned jobs) migrated p) (ok : Assigned jobs p a)
    (st : (api partition).step p a = some q) : Lasts p.shared q.shared := by
  have verified := ledger_verified jobs partition
  rcases Logic.sound_advance verified (ledger_sound run) ok (Machine.steps_of_step st) with
    ⟨t, j, s, b, rfl, keeps, safe⟩ | ⟨t, j, rfl, -⟩ | ⟨s, rfl, -, frame⟩
  · have others := (Logic.settle_keeps verified keeps safe).2 (t + 1) (Nat.succ_ne_self t)
    exact others.2.lasts
  · exact .refl p.shared
  · exact (frame 0).2.lasts

theorem locking_lasts (run : (api partition).Reach locking.Ok migrated p)
    (later : (api partition).Reach locking.Ok p q) : Lasts p.shared q.shared := by
  induction later with
  | refl => exact .refl p.shared
  | @step q q' a before ok st ih =>
    have path := (run.trans before).assigned (.step .refl ok st)
    exact ih.trans (ledger_lasts path ⟨ok, Machine.started_job st⟩ st)

theorem exec_moved {e : Effect} {c : Choice} {r : Except Err e.Answer}
    (inv : (ledger jobs partition).logic.Inv s) (here : (ledger jobs partition).logic.Here t e s)
    (he : exec partition t s e c = some (s', r)) : Moved jobs t s s' := by
  have touch := exec_touch he
  refine ⟨inv.2, seats_step inv.1.wf here.1 inv.2 touch, inv.1.wf,
    (exec_keeps inv.1 here.1 he).1.wf, exec_lasts inv.1.wf here.1 he, ?_⟩
  rcases touch_commits touch with ⟨rfl, act, rfl⟩ | ⟨same, -⟩
  · obtain ⟨free, posts⟩ := here.2
    cases here.1 act with
    | book config eventId dto context b outbox allowed booking owns seats =>
      have mine : b ∈ (s.tx t).bookings := by simp [owns.bookings]
      obtain ⟨j, job, call⟩ := posts act b mine
      obtain ⟨cell, row, -⟩ := seats allowed
      refine .inr ⟨b, j, congrArg (s.bookings ++ ·) owns.bookings, booking.status,
        inv.1.wf.bookings.pending_issued t b.id (List.mem_map_of_mem mine), job, call, ?_, free⟩
      rw [booking.eventId, row]
      rfl
    | drain rows owns => exact .inl (by simp [commitTx, owns.bookings])
  · exact .inl same

theorem ext_moved {x : Ext} (run : (api partition).Reach (Assigned jobs) migrated p)
    (ok : Assigned jobs p (.env x)) (happened : ext p.shared x = some s) :
    Moved jobs t p.shared s := by
  have inv := (ledger_sound run).inv
  have after := (ledger_verified jobs partition).ext p x s ok inv happened
  exact ⟨inv.2, after.1.2, inv.1.wf, after.1.1.wf, (after.2 0).2.lasts, .inl (ext_tables happened).1⟩

/-- The rule for what the COMMITs of the calls preserve. -/
theorem moved_invariant {J : Store → Prop} (run : (api partition).Reach (Assigned jobs) migrated p)
    (start : J {}) (kept : ∀ t s s', Moved jobs t s s' → J s → J s') : J p.shared := by
  induction run with
  | refl => exact start
  | @step q q' a before ok st ih =>
    have sound := ledger_sound before
    cases Machine.steps_of_step st with
    | @start t j =>
      rw [Machine.put, settle_shared]
      exact ih
    | @step t c j e k s r live answered =>
      rw [Machine.put, settle_shared]
      exact kept t _ _ (exec_moved sound.inv (sound.here live) answered) ih
    | kill => exact ih
    | env happened => exact kept 0 _ _ (ext_moved before ok happened) ih

/-- A call books once. -/
theorem booked_once (run : (api partition).Reach (Assigned jobs) migrated p) {b b' : BookingRow}
    (hb : b ∈ p.shared.bookings) (hb' : b' ∈ p.shared.bookings)
    (issued : (b.id, t) ∈ p.shared.issued) (issued' : (b'.id, t) ∈ p.shared.issued) : b = b' := by
  let Once : Store → Prop := fun s => ∀ t, ∀ b ∈ s.bookings, ∀ b' ∈ s.bookings,
    (b.id, t) ∈ s.issued → (b'.id, t) ∈ s.issued → b = b'
  have kept : ∀ t s s', Moved jobs t s s' → Once s → Once s' := by
    intro t s s' moved once u b hb b' hb' issued issued'
    rcases moved.change with same | ⟨new, j, bookings, -, own, -, -, -, free⟩
    · rw [same] at hb hb'
      exact once u b hb b' hb' (issuer_kept moved hb issued) (issuer_kept moved hb' issued')
    · have own' := moved.lasts.grows.issued.subset own
      have fresh : ∀ x ∈ s.bookings, (new.id, u) ∈ s'.issued → (x.id, u) ∈ s'.issued → False := by
        intro x hx mine theirs
        cases owner_unique moved.wf'.once mine own'
        exact free x hx (issuer_kept moved hx theirs)
      rw [bookings] at hb hb'
      rcases List.mem_append.mp hb with old | last <;>
        rcases List.mem_append.mp hb' with old' | last'
      · exact once u b old b' old' (issuer_kept moved old issued) (issuer_kept moved old' issued')
      · cases List.mem_singleton.mp last'
        exact (fresh b old issued' issued).elim
      · cases List.mem_singleton.mp last
        exact (fresh b' old' issued issued').elim
      · rw [List.mem_singleton.mp last, List.mem_singleton.mp last']
  have once : Once p.shared := moved_invariant run (fun _ _ hb => nomatch hb) kept
  exact once t b hb b' hb' issued issued'

/-- Every booking was made by the call that asked for it. -/
theorem booker_called (run : (api partition).Reach (Assigned jobs) migrated p) :
    ∀ b ∈ p.shared.bookings, ∃ t j, (b.id, t) ∈ p.shared.issued ∧ jobs t = some j ∧
      bookCall b.eventId j = some b.quantity := by
  let Called : Store → Prop := fun s => ∀ b ∈ s.bookings, ∃ t j, (b.id, t) ∈ s.issued ∧
    jobs t = some j ∧ bookCall b.eventId j = some b.quantity
  refine moved_invariant (J := Called) run (fun _ hb => nomatch hb) fun t s s' moved called b hb => ?_
  have issued := moved.lasts.grows.issued
  rcases moved.change with same | ⟨new, j, bookings, -, own, job, call, -, -⟩
  · obtain ⟨t', j, own, rest⟩ := called b (same ▸ hb)
    exact ⟨t', j, issued.subset own, rest⟩
  · rw [bookings] at hb
    rcases List.mem_append.mp hb with old | last
    · obtain ⟨t', j, own, rest⟩ := called b old
      exact ⟨t', j, issued.subset own, rest⟩
    · cases List.mem_singleton.mp last
      exact ⟨t, j, issued.subset own, job, call⟩

theorem refused_told {j : Job} {quantity : Nat} (h : Told t j (.error soldOut) s)
    (call : bookCall eventId j = some quantity) : Short eventId quantity s ∧ Unbooked t s := by
  cases j with
  | book config e dto context =>
    simp only [bookCall] at call
    split at call
    · rename_i same
      subst same
      cases Option.some.inj call
      exact h rfl
    · cases call
  | _ => cases call

/-- Nobody has booked an event that is new, and nobody could have been refused. -/
theorem Counted.created {slot : Slots} (moved : Moved jobs t s s') (row : s.events eventId = none)
    (told : ∀ t j r, slot t = .ended j r → Told t j r s) :
    Counted eventId total ⟨s', slot⟩ [] := by
  have before : ∀ b ∈ s.bookings, b.eventId ≠ eventId := by
    rintro b hb rfl
    have known := moved.kept.known b hb
    rw [row] at known
    cases known
  have others : ∀ b ∈ s'.bookings, b.eventId ≠ eventId := by
    rcases moved.change with same | ⟨b, j, bookings, -, -, -, -, known, -⟩
    · rw [same]
      exact before
    · rw [bookings]
      intro b' hb'
      rcases List.mem_append.mp hb' with hb' | hb'
      · exact before b' hb'
      · cases List.mem_singleton.mp hb'
        rintro rfl
        rw [row] at known
        cases known
  constructor
  · exact List.nodup_nil
  · exact fun _ _ h => nomatch h
  · exact fun _ h => nomatch h
  · have empty : s'.bookings.filter
        (fun b => b.eventId == eventId && b.status == .confirmed) = [] := by
      rw [List.filter_eq_nil_iff]
      intro b hb
      simp [others b hb]
    simp [served, confirmedQuantity, empty]
  · exact fun before b t' old event => absurd event (others b (old.subset (by simp)))
  · intro t' j quantity ended call
    obtain ⟨⟨c, known, -⟩, -⟩ := refused_told (told t' j _ ended) call
    rw [row] at known
    cases known

theorem Counted.absent {slot : Slots} {log : List (Tid × Nat)}
    (h : Counted eventId total ⟨s, slot⟩ log) (live : (slot t).isSettled = false)
    (free : Unbooked t s) : t ∉ log.map Prod.fst := by
  intro mem
  obtain ⟨x, hx, rfl⟩ := List.mem_map.mp mem
  rcases h.entered x hx with ⟨b, hb, -, issued⟩ | ⟨j, ended⟩
  · exact free b hb issued
  · rw [show slot x.1 = .ended j (.error soldOut) from ended] at live
    cases live

/-- The log after the store has moved on: it gains the sale of `t`, if there is one. -/
theorem logged_moved {slot : Slots} {log : List (Tid × Nat)} (h : Logged eventId ⟨s, slot⟩ log)
    (moved : Moved jobs t s s')
    (busy : s'.bookings = s.bookings ∨
      (slot t).isSettled = false ∧ ∀ j, jobs t = some j → (slot t).job = some j)
    (told : ∀ t j r, slot t = .ended j r → Told t j r s) :
    ∃ new, Logged eventId ⟨s', slot⟩ (log ++ new) ∧
      ∀ x ∈ new, (slot x.1).isSettled = false := by
  cases row : s.events eventId with
  | none =>
    cases (logged_none row).mp h
    refine ⟨[], ?_, fun _ hx => nomatch hx⟩
    cases row' : s'.events eventId with
    | none => exact (logged_none row').mpr rfl
    | some c => exact (logged_some row').mpr (.created moved row told)
  | some c =>
    have counted := (logged_some row).mp h
    obtain ⟨c', row', total⟩ := moved.lasts.totals eventId c row
    have still : (∀ b ∈ s'.bookings, b.eventId = eventId → b ∈ s.bookings) →
        confirmedQuantity eventId s'.bookings = confirmedQuantity eventId s.bookings →
        ∃ new, Logged eventId ⟨s', slot⟩ (log ++ new) ∧
          ∀ x ∈ new, (slot x.1).isSettled = false := by
      intro same sums
      refine ⟨[], ?_, fun _ hx => nomatch hx⟩
      rw [List.append_nil, logged_some row', total]
      exact counted.still moved same sums
    rcases moved.change with same | ⟨b, j, bookings, status, issued, job, call, -, free⟩
    · exact still (by rw [same]; exact fun _ hb _ => hb) (by rw [same])
    by_cases event : b.eventId = eventId
    · subst event
      obtain same | ⟨live, kept⟩ := busy
      · rw [bookings] at same
        exact absurd same (by simp)
      have seats := moved.kept'.seats b.eventId c' row'
      have enough : (b.quantity : Int) ≤
          c.committed.totalSeats - confirmedQuantity b.eventId s.bookings := by
        have counter := seats.counter
        have nonneg := seats.nonneg
        rw [bookings, confirmedQuantity_snoc, if_pos ⟨rfl, status⟩, total] at counter
        omega
      refine ⟨[(t, b.quantity)], ?_, fun x hx => ?_⟩
      · rw [logged_some row', total]
        exact counted.sale moved bookings status rfl issued (kept j job) call
          (counted.absent live free) enough
      · cases List.mem_singleton.mp hx
        exact live
    · refine still ?_ ?_
      · rw [bookings]
        intro b' hb' event'
        rcases List.mem_append.mp hb' with hb' | hb'
        · exact hb'
        · cases List.mem_singleton.mp hb'
          exact absurd event' event
      · rw [bookings, confirmedQuantity_snoc, if_neg fun both => event both.1, Nat.add_zero]

/-- The log after a task has gone on or settled: it gains a refusal, if there is one. -/
theorem logged_slot {slot : Slots} {log : List (Tid × Nat)}
    {new : Slot Job Effect Effect.Answer Err Response} (h : Logged eventId ⟨s, slot⟩ log)
    (job : ∀ j, (slot t).job = some j → new.job = some j) (live : (slot t).isSettled = false)
    (told : ∀ j r, new = .ended j r → Told t j r s) :
    ∃ more, Logged eventId ⟨s, Function.update slot t new⟩ (log ++ more) ∧
      ∀ x ∈ more, (slot x.1).isSettled = false := by
  cases row : s.events eventId with
  | none =>
    cases (logged_none row).mp h
    exact ⟨[], (logged_none row).mpr rfl, fun _ hx => nomatch hx⟩
  | some c =>
    have counted := (logged_some row).mp h
    by_cases refused : ∃ j quantity, new = .ended j (.error soldOut) ∧
        bookCall eventId j = some quantity
    · obtain ⟨j, quantity, rfl, call⟩ := refused
      obtain ⟨⟨c', row', short⟩, free⟩ := refused_told (told j _ rfl) call
      cases Option.some.inj (row.symm.trans row')
      refine ⟨[(t, quantity)], (logged_some row).mpr ?_, fun x hx => ?_⟩
      · exact counted.refusal (counted.absent live free) call short
      · cases List.mem_singleton.mp hx
        exact live
    · refine ⟨[], ?_, fun _ hx => nomatch hx⟩
      rw [List.append_nil, logged_some row]
      refine counted.goes job (fun j ended => ?_) fun j quantity ended call =>
        refused ⟨j, quantity, ended, call⟩
      rw [ended] at live
      cases live

/-- Every step of the pool adds the calls to the log whose turn it is. -/
theorem logged_step {a : Act Job Choice Ext} {log : List (Tid × Nat)}
    (run : (api partition).Reach (Assigned jobs) migrated p) (h : Logged eventId p log)
    (ok : Assigned jobs p a) (st : (api partition).step p a = some q) :
    ∃ new, Logged eventId q (log ++ new) ∧ ∀ x ∈ new, (p.slot x.1).isSettled = false := by
  have sound := ledger_sound run
  have told : ∀ t j r, p.slot t = .ended j r → Told t j r p.shared :=
    fun _ _ _ => told_always run
  have after : ∀ {t j r}, q.slot t = .ended j r → Told t j r q.shared :=
    fun ended => told_always (.step run ok st) ended
  -- the slot of the task is written once its statement has been answered
  have settles : ∀ {t j s b log}, q = Machine.put p t ((api partition).settle t j s b) →
      (p.slot t).isSettled = false → (∀ j', (p.slot t).job = some j' → j' = j) →
      Logged eventId ⟨s, p.slot⟩ log → ∃ more, Logged eventId q (log ++ more) ∧
        ∀ x ∈ more, (p.slot x.1).isSettled = false := by
    intro t j s b log eq live same logged
    have shared : q.shared = s := by
      rw [eq]
      exact settle_shared t j s b
    have slots : q = ⟨s, Function.update p.slot t ((api partition).settle t j s b).2⟩ :=
      eq.trans (congrArg (Pool.mk · _) (settle_shared t j s b))
    rw [slots]
    refine logged_slot logged (fun j' had => ?_) live fun j' r ended => ?_
    · rw [Machine.settle_job, same j' had]
    · rw [← shared]
      refine after ?_
      rw [slots]
      exact (Function.update_self ..).trans ended
  cases Machine.steps_of_step st with
  | @start t j idle ready =>
    exact settles rfl (by rw [idle]; rfl) (fun j' had => by rw [idle] at had; cases had) h
  | @step t c j e k s r live answered =>
    have moved := exec_moved sound.inv (sound.here live) answered
    have job : (p.slot t).job = some j := by rw [live]; rfl
    have active : (p.slot t).isSettled = false := by rw [live]; rfl
    have kept : ∀ j', jobs t = some j' → (p.slot t).job = some j' := by
      intro j' assigned
      rw [job, ← assigned]
      exact (Machine.Reach.jobs run (fun _ _ ok => ok.2) t j job).symm
    obtain ⟨sale, logged, turns⟩ := logged_moved h moved (.inr ⟨active, kept⟩) told
    have same : ∀ j', (p.slot t).job = some j' → j' = j :=
      fun j' had => Option.some.inj (had.symm.trans job)
    obtain ⟨more, logged', turns'⟩ := settles rfl active same logged
    refine ⟨sale ++ more, by rw [← List.append_assoc]; exact logged', fun x hx => ?_⟩
    rcases List.mem_append.mp hx with hx | hx
    · exact turns x hx
    · exact turns' x hx
  | @kill t j e k live =>
    refine logged_slot h (fun j' had => ?_) (by rw [live]; rfl) fun _ _ ended => nomatch ended
    rw [live] at had
    exact had
  | @env x s happened =>
    have moved : Moved jobs 0 p.shared s := ext_moved run ok happened
    exact logged_moved h moved (.inl (ext_tables happened).1) told

/- Who is in the order: those that have booked, and those that were refused. -/
def Entered (eventId : Uuid) (p : ApiPool) (t : Tid) : Prop :=
  (∃ b ∈ p.shared.bookings, b.eventId = eventId ∧ (b.id, t) ∈ p.shared.issued) ∨
    ∃ j, p.slot t = .ended j (.error soldOut)

theorem Counted.linearizes {log : List (Tid × Nat)} (h : Counted eventId total p log)
    (told : ∀ t j r, p.slot t = .ended j r → Told t j r p.shared)
    (size : ∀ c, p.shared.events eventId = some c → c.committed.totalSeats = total) :
    Linearizes (bookCall eventId) verdict sell total p log := by
  refine ⟨h.once, h.calls, fun t j r quantity v ended call gave => ?_⟩
  cases r with
  | error x =>
    simp only [verdict] at gave
    split at gave
    · rename_i refused
      subst refused
      cases Option.some.inj gave
      exact h.refusals t j quantity ended call
    · cases gave
  | ok response =>
    cases j with
    | book config e dto context =>
      simp only [bookCall] at call
      split at call
      · rename_i same
        subst same
        cases response with
        | booked response =>
          cases Option.some.inj gave
          obtain ⟨c, before, b, row, sold, issued, event, -, left⟩ := told t _ _ ended
          rw [left, size c row]
          exact h.sales before b t sold event issued
        | _ => cases gave
      · cases call
    | _ => cases call

/-- Every history of book calls has an order in which the sequential counter gives the answers
that the calls got; see also `Settles` for what a call may be answered. -/
theorem linear_order {past : List ApiPool} {c : Cell EventRow}
    (path : (api partition).Path locking.Ok migrated past p)
    (row : p.shared.events eventId = some c) :
    ∃ order, Linearizes (bookCall eventId) verdict sell c.committed.totalSeats p order ∧
      InRealTime past order ∧ ∀ x ∈ order, Entered eventId p x.1 := by
  have path := path.assigned .refl
  have start : Logged eventId migrated [] := (logged_none rfl).mpr rfl
  have known : ∀ (r : ApiPool) log, Logged eventId r log → ∀ x ∈ log, r.slot x.1 ≠ .idle := by
    intro r log h x hx idle
    cases row : r.shared.events eventId with
    | none =>
      cases (logged_none row).mp h
      cases hx
    | some c =>
      obtain ⟨j, job, -⟩ := ((logged_some row).mp h).calls x.1 x.2 hx
      rw [idle] at job
      cases job
  obtain ⟨order, logged, realTime⟩ := logged_order path start known
    fun r r' a log run h ok st => logged_step run h ok st
  have counted := (logged_some row).mp logged
  refine ⟨order, counted.linearizes (fun _ _ _ => told_always path.reach) ?_, realTime, ?_⟩
  · intro c' row'
    cases Option.some.inj (row.symm.trans row')
    rfl
  · exact counted.entered

def Verdict.isConfirmed : Verdict → Bool
  | .confirmed _ => true
  | .soldOut => false

@[simp] theorem isConfirmed_confirmed (n : Int) : (Verdict.confirmed n).isConfirmed = true := rfl
@[simp] theorem isConfirmed_soldOut : Verdict.soldOut.isConfirmed = false := rfl

def granted (p : ApiPool) (t : Tid) : Bool :=
  match p.slot t with
  | .ended _ r => (verdict r).any Verdict.isConfirmed
  | _ => false

/-- The counter sells one seat a call until none is left. -/
theorem single_seats {remaining : Int} (nonneg : 0 ≤ remaining) {order : List (Tid × Nat)}
    (single : ∀ x ∈ order, x.2 = 1) :
    (((replies sell remaining order).countP fun x => x.2.isConfirmed : Nat) : Int) =
      min (order.length : Int) remaining := by
  induction order generalizing remaining with
  | nil => simp [replies, nonneg]
  | cons x order ih =>
    have one : x.2 = 1 := single x (List.mem_cons_self ..)
    have rest := fun y hy => single y (List.mem_cons_of_mem x hy)
    simp only [replies, List.countP_cons, List.length_cons, one]
    rcases Int.lt_or_le remaining 1 with less | enough
    · rw [sell_short (by omega)]
      have tail := ih nonneg rest
      simp only [isConfirmed_soldOut, Bool.false_eq_true, if_false]
      omega
    · rw [sell_enough (by omega)]
      have left : 0 ≤ remaining - ((1 : Nat) : Int) := by omega
      have tail := ih left rest
      simp only [isConfirmed_confirmed, if_true]
      omega

theorem single_granted {order : List (Tid × Nat)} {ts : List Tid} (nonneg : 0 ≤ total)
    (h : Linearizes (bookCall eventId) verdict sell total p order) (once : ts.Nodup)
    (calls : ∀ t, t ∈ ts ↔ ∃ j, (p.slot t).job = some j ∧ bookCall eventId j ≠ none)
    (single : ∀ t ∈ ts, ∃ j r v, p.slot t = .ended j r ∧ bookCall eventId j = some 1 ∧
      verdict r = some v) : ((ts.countP (granted p) : Nat) : Int) = min (ts.length : Int) total := by
  have named : (replies sell total order).map Prod.fst = order.map Prod.fst :=
    replies_calls total order
  have answer : ∀ t ∈ ts, ∃ v, (t, v) ∈ replies sell total order ∧ granted p t = v.isConfirmed := by
    intro t ht
    obtain ⟨j, r, v, ended, call, gave⟩ := single t ht
    exact ⟨v, h.answered t j r 1 v ended call gave, by simp [granted, ended, gave]⟩
  have same : (order.map Prod.fst).Perm ts := by
    rw [List.perm_ext_iff_of_nodup h.once once]
    refine fun t => ⟨fun mem => ?_, fun mem => ?_⟩
    · obtain ⟨x, hx, rfl⟩ := List.mem_map.mp mem
      obtain ⟨j, job, call⟩ := h.calls x.1 x.2 hx
      exact (calls x.1).mpr ⟨j, job, by rw [call]; exact Option.some_ne_none _⟩
    · obtain ⟨v, mem, -⟩ := answer t mem
      rw [← named]
      exact List.mem_map_of_mem mem
  have ones : ∀ x ∈ order, x.2 = 1 := by
    intro x hx
    obtain ⟨j, job, call⟩ := h.calls x.1 x.2 hx
    obtain ⟨j', r, v, ended, call', -⟩ := single x.1 (same.subset (List.mem_map_of_mem hx))
    rw [ended] at job
    cases Option.some.inj job
    exact Option.some.inj (call.symm.trans call')
  have counted : ts.countP (granted p) =
      (replies sell total order).countP fun x => x.2.isConfirmed := by
    rw [← same.countP_eq, ← named, List.countP_map]
    refine List.countP_congr fun x hx => ?_
    have ht : x.1 ∈ ts := same.subset (by rw [← named]; exact List.mem_map_of_mem hx)
    obtain ⟨v, mem, confirmed⟩ := answer x.1 ht
    have nodup : ((replies sell total order).map Prod.fst).Nodup := by
      rw [named]
      exact h.once
    have eq : (x.1, v) = x := List.inj_on_of_nodup_map nodup mem hx rfl
    rw [Function.comp_apply, confirmed, ← eq]
  rw [counted, single_seats nonneg ones, ← same.length_eq, List.length_map]

/-- Booking is linearizable: there is an order of the calls of an event, consistent with real time,
in which the sequential counter gives every verdict. A call that starts once the event exists gets
a verdict, or is left aside; and N requests for one seat sell as many seats as there are. -/
theorem book_linearizable (partition : String → String → Nat) (past : List ApiPool) (p : ApiPool)
    (path : (api partition).Path locking.Ok migrated past p) (eventId : Uuid) (c : Cell EventRow)
    (row : p.shared.events eventId = some c) :
    (∃ order, Linearizes (bookCall eventId) verdict sell c.committed.totalSeats p order ∧
      InRealTime past order ∧ ∀ x ∈ order, Entered eventId p x.1) ∧
    (∀ q ∈ past, (q.shared.events eventId).isSome = true → ∀ t j r, q.slot t = .idle →
      p.slot t = .ended j r → bookCall eventId j ≠ none → Settles r) ∧
    ∀ ts : List Tid, ts.Nodup →
      (∀ t, t ∈ ts ↔ ∃ j, (p.slot t).job = some j ∧ bookCall eventId j ≠ none) →
      (∀ t ∈ ts, ∃ j r v, p.slot t = .ended j r ∧ bookCall eventId j = some 1 ∧
        verdict r = some v) →
      ((ts.countP (granted p) : Nat) : Int) = min (ts.length : Int) c.committed.totalSeats := by
  obtain ⟨order, linear, realTime, entered⟩ := linear_order path row
  refine ⟨⟨order, linear, realTime, entered⟩, fun q hq known t j r idle ended asked => ?_, ?_⟩
  · exact book_settles known (path.passed hq) idle asked ended
  · intro ts once calls single
    have seats := (seats_kept path.reach).seats eventId c row
    have counter := seats.counter
    have nonneg := seats.nonneg
    exact single_granted (by omega) linear once calls single

/- One seat is left, and two calls at once want it. -/
def lastSeat : List (Act Job Choice Ext) :=
  [.start 0 (.create (.checked "show" "hall" 1 0 "2026-12-01T12:00:00Z" passed)),
    .step 0 (.uuid "e"),
    .start 1 (.book {} "e" (.checked "user-1" 1 passed) {}),
    .start 2 (.book {} "e" (.checked "user-2" 1 passed) {}),
    .step 1 .ok, .step 2 .ok, .step 1 .ok, .step 1 .ok, .step 1 (.uuid "b"), .step 1 (.time 0),
    .step 1 (.uuid "m"), .step 1 .ok, .step 2 .ok, .step 1 .ok, .step 2 .ok, .step 1 .ok,
    .step 2 .ok]

theorem book_linearizable_last : ∃ past p, (api fun _ _ => 0).Path locking.Ok migrated past p ∧
    granted p 1 = true ∧ granted p 2 = false ∧ ∃ c, p.shared.events "e" = some c ∧
    (∃ order, Linearizes (bookCall "e") verdict sell c.committed.totalSeats p order ∧
      InRealTime past order ∧ ∀ x ∈ order, Entered "e" p x.1) := by
  have replay : (((api fun _ _ => 0).run migrated lastSeat).map fun p =>
      (granted p 1, granted p 2, (p.shared.events "e").isSome)) = some (true, false, true) := by
    decide +kernel
  obtain ⟨p, hp, seen⟩ := Option.map_eq_some_iff.mp replay
  simp only [Prod.mk.injEq] at seen
  obtain ⟨first, second, known⟩ := seen
  obtain ⟨c, row⟩ := Option.isSome_iff_exists.mp known
  have run : (api fun _ _ => 0).Reach locking.Ok migrated p := by
    refine any_run hp fun t j start => ?_
    simp only [lastSeat, List.mem_cons, List.not_mem_nil, or_false, reduceCtorEq, false_or,
      Act.start.injEq] at start
    rcases start with ⟨-, rfl⟩ | ⟨-, rfl⟩ | ⟨-, rfl⟩
    · trivial
    · intro naive
      cases naive
    · intro naive
      cases naive
  obtain ⟨past, path⟩ := Machine.Path.of_reach run
  exact ⟨past, p, path, first, second, c, row,
    (book_linearizable (fun _ _ => 0) past p path "e" c row).1⟩

end Overbook
