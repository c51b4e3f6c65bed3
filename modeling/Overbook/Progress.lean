import Mathlib.Data.Fintype.EquivFin
import Overbook.Async.Completion
import Overbook.Bookings.Locks
import Overbook.Bookings.Prepared
import Overbook.Outbox.Recovery

/-! No deadlock. A book call locks the row of its own event and no other, a drain passes over the
rows that others hold, and so no call waits for one that waits itself. -/
namespace Overbook

open Async Prog ReadCommitted Kafka Store

/-- Nothing fails any more: a statement does only where its transaction is lost already, and
Postgres ends only the transactions that nobody goes on with. -/
def Unfailing (p : ApiPool) : Act Job Choice Ext → Prop
  | .step t c => ∀ j e k, p.slot t = .live j e k → Failing e c → p.shared.active t = false
  | .env (.abortTx t) => (p.slot t).isLive = false
  | _ => False

variable {partition : String → String → Nat} {id : Uuid} {t : Tid} {s s' : Store} {p : ApiPool}
  {allowed : Job → Prop}

def Limited (j : Job) (e : Effect) : Prop :=
  ∀ limit, e = .selectPending limit → ∃ config replica, j = .drainOnce config replica ∧
    limit = config.batchSize

theorem limited_of_other {j : Job} {e : Effect} (other : ∀ limit, e ≠ .selectPending limit) :
    Limited j e := fun limit same => absurd same (other limit)

theorem drainBatch_limited {config : OutboxConfig} {replica : Replica} :
    (drainBatch config).Only (Limited (.drainOnce config replica)) := by
  have gauge : refreshPendingGauge.Only (Limited (.drainOnce config replica)) :=
    only_bind ((only_await _).mpr (limited_of_other nofun)) fun _ => trivial
  have failed : ∀ error rows, (markFailed config.maxAttempts error rows).Only
      (Limited (.drainOnce config replica)) := by
    intro error rows
    induction rows with
    | nil => trivial
    | cons row rows ih =>
      refine only_bind ((only_await _).mpr (limited_of_other nofun)) fun now => ?_
      exact only_bind ((only_await _).mpr (limited_of_other nofun)) fun _ => ih
  have first : Limited (.drainOnce config replica) (.selectPending config.batchSize) := by
    rintro limit same
    cases same
    exact ⟨config, replica, rfl, rfl⟩
  refine only_bind ((only_await _).mpr first) fun rows => ?_
  split
  · exact only_bind gauge fun _ => trivial
  · refine only_bind (only_outcome ?_) fun r => ?_
    · unfold publishBatch
      split
      · trivial
      · exact (only_await _).mpr (limited_of_other nofun)
    · cases r with
      | error x => exact only_bind (failed x rows) fun _ => trivial
      | ok u =>
        refine only_bind ((only_await _).mpr (limited_of_other nofun)) fun _ => ?_
        exact only_bind gauge fun _ => trivial

theorem code_limited (j : Job) : j.code.Only (Limited j) := by
  cases j with
  | create dto => exact only_bind ((only_await _).mpr (limited_of_other nofun)) fun _ => trivial
  | book config eventId dto context =>
    refine only_bind (book_only (only_mono (fun e books => ?_) bookInTransaction_books) ?_) ?_
    · cases e <;> first | exact books.elim | exact limited_of_other nofun
    · intro e wraps
      cases e <;> first | exact wraps.elim | exact limited_of_other nofun
    · exact fun _ => trivial
  | integrity eventId =>
    refine only_bind (only_mono (fun e wraps => ?_) integrity_wraps) fun _ => trivial
    cases e <;> first | exact wraps.elim | exact limited_of_other nofun
  | drainOnce config replica =>
    refine only_bind (only_bind ((only_await _).mpr (limited_of_other nofun)) fun running => ?_) ?_
    · split
      · trivial
      · refine only_ensure (only_handle ?_ fun x => ?_) ((only_await _).mpr (limited_of_other nofun))
        · refine only_bind ((only_await _).mpr (limited_of_other nofun)) fun _ => ?_
          refine only_bind drainBatch_limited fun _ => ?_
          exact only_bind ((only_await _).mpr (limited_of_other nofun)) fun _ => trivial
        · refine only_bind (only_handle ?_ fun _ => trivial) fun _ => trivial
          exact (only_await _).mpr (limited_of_other nofun)
    · exact fun _ => trivial

theorem fresh_possible (s : Store) : ∃ id, s.fresh id = true := by
  obtain ⟨id, new⟩ := Infinite.exists_notMem_finset (s.issued.map (·.1)).toFinset
  exact ⟨id, by simpa [fresh] using new⟩

theorem marking_free {R : Regime} {ids : List Uuid} {patch : OutboxPatch} (wf : WF s)
    (marking : Marking R t ids patch s) : s.outbox.freeFor t (among ids) = true := by
  have mine : ∀ rows, Owns t [] [] none rows s → (∀ x ∈ ids, ∃ r ∈ rows, r.id = x) →
      s.outbox.freeFor t (among ids) = true := by
    intro rows owns own
    apply List.all_eq_true.mpr
    intro c hc
    cases asked : among ids c with
    | false => rfl
    | true =>
      obtain ⟨r, hr, same⟩ := own c.committed.id (by simpa [among] using asked)
      obtain ⟨d, hd, rfl⟩ := owns.picked r hr
      obtain ⟨there, held⟩ := Rows.mem_held.mp hd
      -- rows with one id are one row
      have nodup : (s.outbox.map fun c => c.committed.id).Nodup := by
        have nodup := wf.outbox.nodup
        rwa [Rows.committed, List.map_map] at nodup
      obtain rfl := List.inj_on_of_nodup_map nodup there hc same
      simpa using Cell.free_of_heldBy held
  cases marking with
  | published rows owns same =>
    refine mine rows owns fun x hx => ?_
    rw [same] at hx
    exact List.mem_map.mp hx
  | failed rows row maxAttempts error now owns there same =>
    refine mine rows owns fun x hx => ?_
    rw [same] at hx
    exact ⟨row, there, (List.mem_singleton.mp hx).symm⟩

def Unopposed (t : Tid) (j : Job) (s : Store) : Prop :=
  ∀ id, j.event = some id → ∀ t', t' ≠ t → s.heldEvent t' id = false

theorem Unopposed.free {j : Job} {c : Cell EventRow} (h : Unopposed t j s)
    (event : j.event = some id)
    (row : s.events id = some c) : c.free t = true := by
  unfold Cell.free
  cases holder : c.holder with
  | none => rfl
  | some held =>
    by_contra other
    have others := h id event held.1 (by simpa using other)
    simp [heldEvent, row, Cell.heldBy, holder] at others

/-- Every call that is not opposed can be answered without a failure, unless its transaction is
lost already. -/
theorem answer_possible {j : Job} {e : Effect} {k : Except Err e.Answer → Service Response}
    (sizes : ∀ config replica, allowed (.drainOnce config replica) → 0 ≤ config.batchSize)
    (run : (api partition).Reach (Regime.any allowed).Ok migrated p)
    (live : p.slot t = .live j e k) (unopposed : Unopposed t j p.shared) :
    ∃ c s r, (Failing e c → p.shared.active t = false) ∧
      exec partition t p.shared e c = some (s, r) := by
  obtain ⟨entries, history⟩ := Machine.History.of_reach run
  have sound := api_sound run
  have here := Logic.Sound.here sound live
  have prepared := (history.heeds (fun _ _ => trivial) (code_prepared j)).1 e k live
  have locks := run.only code_locks live
  have limited := run.only code_limited live
  have job : (p.slot t).job = some j := by rw [live]; rfl
  have mine : allowed j := run.allowed (fun _ _ _ ok => ok) job
  -- a statement that needs an open transaction
  have inside : (p.shared.active t = true → ∃ c s r, ¬ Failing e c ∧
        exec partition t p.shared e c = some (s, r)) →
      (∀ s, exec partition t s e .fail = failed t s) → Failing e .fail →
      ∃ c s r, (Failing e c → p.shared.active t = false) ∧
        exec partition t p.shared e c = some (s, r) := by
    intro open' lost fails
    cases act : p.shared.active t with
    | true =>
      obtain ⟨c, s, r, fine, answered⟩ := open' act
      exact ⟨c, s, r, fun failing => absurd failing fine, answered⟩
    | false => exact ⟨.fail, _, _, fun _ => rfl, lost p.shared⟩
  have unbegun : (∀ y ∈ eventsOf t entries, y.1 ≠ .beginTx) → p.shared.active t = false := by
    intro none
    by_contra act
    obtain ⟨y, hy, begun⟩ := active_begun history (by simpa using act)
    exact none y hy begun
  obtain ⟨fresh, unused⟩ := fresh_possible p.shared
  cases e with
  | beginTx => exact ⟨.ok, _, _, False.elim, by simp only [exec, unbegun prepared]; rfl⟩
  | insertEvent row =>
    exact ⟨.uuid fresh, _, _, False.elim, by simp only [exec, unused, unbegun prepared]; rfl⟩
  | commitTx =>
    exact inside (fun act => ⟨.ok, _, _, False.elim, by simp only [exec, act]; rfl⟩) (fun _ => rfl) trivial
  | findEventForUpdate id =>
    refine inside (fun act => ?_) (fun _ => rfl) trivial
    cases row : p.shared.events id with
    | none => exact ⟨.ok, _, _, False.elim, by simp only [exec, act, row]; rfl⟩
    | some c =>
      have free := unopposed.free (locks id rfl) row
      exact ⟨.ok, _, _, False.elim, by simp only [exec, act, row, free]; rfl⟩
  | updateEvent id cond patch =>
    refine inside (fun act => ?_) (fun _ => rfl) trivial
    cases row : p.shared.events id with
    | none => exact ⟨.ok, _, _, False.elim, by simp only [exec, act, row]; rfl⟩
    | some c =>
      have free := unopposed.free (locks id rfl) row
      cases matched : cond (c.view t) with
      | true => exact ⟨.ok, _, _, False.elim, by simp only [exec, act, row, free, matched]; rfl⟩
      | false => exact ⟨.ok, _, _, False.elim, by simp only [exec, act, row, free, matched]; rfl⟩
  | insertBooking row =>
    refine inside (fun act => ?_) (fun _ => rfl) trivial
    have known := found_known history prepared
    exact ⟨.uuid fresh, _, _, False.elim, by simp only [exec, act, unused, known]; rfl⟩
  | insertOutbox row =>
    refine inside (fun act => ?_) (fun _ => rfl) trivial
    exact ⟨.uuid fresh, _, _, False.elim, by simp only [exec, act, unused]; rfl⟩
  | selectPending limit =>
    refine inside (fun act => ?_) (fun _ => rfl) trivial
    obtain ⟨config, replica, rfl, rfl⟩ := limited limit rfl
    have size := sizes config replica mine
    have distinct : ((p.shared.outbox.filter (p.shared.eligible t)).map (·.committed)).Nodup := by
      have nodup := sound.inv.wf.outbox.nodup
      rw [Rows.committed, List.map_map] at nodup
      refine List.Nodup.of_map (·.id) ?_
      rw [List.map_map]
      exact nodup.sublist (List.filter_sublist.map _)
    obtain ⟨rows, selects⟩ := selects_possible size distinct
    exact ⟨.rows rows, _, _, False.elim, by simp only [exec, act, size, selects]; rfl⟩
  | updateOutbox ids patch =>
    refine inside (fun act => ?_) (fun _ => rfl) trivial
    have free := marking_free sound.inv.wf (here act)
    exact ⟨.ok, _, _, False.elim, by simp only [exec, act, free]; rfl⟩
  | countPending =>
    exact inside (fun act => ⟨.ok, _, _, False.elim, by simp only [exec, act]; rfl⟩) (fun _ => rfl) trivial
  | dateNow => exact ⟨.time 0, _, _, False.elim, rfl⟩
  | _ => exact ⟨.ok, _, _, False.elim, rfl⟩

/-! One call after the other comes to its end. -/

theorem unfailing_any {a : Act Job Choice Ext} (h : Unfailing p a) :
    (Regime.any allowed).Ok p a := by
  cases a with
  | start t j => exact h.elim
  | step t c => exact fun _ _ _ _ => trivial
  | kill t => exact h.elim
  | env x => cases x <;> trivial

/- The open transactions belong to live calls, all but perhaps one. -/
def Owned (except : Tid → Prop) (p : ApiPool) : Prop :=
  ∀ t, ¬ except t → p.shared.active t = true → (p.slot t).isLive = true

theorem abort_others {t' : Tid} (ne : t' ≠ t) : (s.abort t).tx t' = s.tx t' := by
  unfold abort
  split
  · exact Function.update_of_ne ne ..
  · rfl

/- Postgres ends the transactions of the calls that have gone. -/
theorem orphans_end {n : Nat} (later : ∀ t, n ≤ t → p.slot t = .idle)
    (run : (api partition).Reach (Regime.any allowed).Ok migrated p) :
    ∃ q, (api partition).Reach Unfailing p q ∧ q.slot = p.slot ∧ Owned (fun _ => False) q := by
  have ended : ∀ m, ∃ q, (api partition).Reach Unfailing p q ∧ q.slot = p.slot ∧
      Owned (fun t => m ≤ t) q := by
    intro m
    induction m with
    | zero => exact ⟨p, .refl, rfl, fun t big => absurd (Nat.zero_le t) big⟩
    | succ m ih =>
      obtain ⟨q, before, slots, owned⟩ := ih
      cases live : (p.slot m).isLive with
      | true =>
        refine ⟨q, before, slots, fun t small act => ?_⟩
        by_cases last : t = m
        · rw [slots, last]
          exact live
        · have below : t < m := Nat.lt_of_le_of_ne (Nat.le_of_lt_succ (Nat.lt_of_not_le small)) last
          exact owned t (Nat.not_le_of_lt below) act
      | false =>
        have gone : (q.slot m).isLive = false := by rwa [slots]
        have st : (api partition).step q (.env (.abortTx m)) = some ⟨q.shared.abort m, q.slot⟩ := rfl
        refine ⟨⟨q.shared.abort m, q.slot⟩, before.step (a := .env (.abortTx m)) gone st, slots,
          fun t small act => ?_⟩
        by_cases last : t = m
        · subst last
          exact nomatch (abort_inactive t q.shared).symm.trans act
        · have below : t < m := Nat.lt_of_le_of_ne (Nat.le_of_lt_succ (Nat.lt_of_not_le small)) last
          exact owned t (Nat.not_le_of_lt below) (by rwa [← active_congr (abort_others last)])
  obtain ⟨q, before, slots, owned⟩ := ended n
  refine ⟨q, before, slots, fun t _ act => ?_⟩
  by_cases started : t < n
  · exact owned t (Nat.not_le_of_lt started) act
  · -- a task that has not been started has no transaction
    have idle : q.slot t = .idle := by
      rw [slots]
      exact later t (Nat.le_of_not_lt started)
    have sound := api_sound (run.trans (before.mono fun _ _ ok => unfailing_any ok))
    exact nomatch (sound.fresh t idle).idle.symm.trans act

theorem call_ends {j : Job} {e : Effect} {k : Except Err e.Answer → Service Response}
    (sizes : ∀ config replica, allowed (.drainOnce config replica) → 0 ≤ config.batchSize)
    (run : (api partition).Reach (Regime.any allowed).Ok migrated p)
    (owned : Owned (fun _ => False) p) (live : p.slot t = .live j e k)
    (unopposed : Unopposed t j p.shared) :
    ∃ q r, (api partition).Reach Unfailing p q ∧ Owned (fun _ => False) q ∧
      q.slot t = .ended j r ∧ ∀ t', t' ≠ t → q.slot t' = p.slot t' := by
  let P : ApiPool → Prop := fun q => (api partition).Reach (Regime.any allowed).Ok migrated q ∧
    Owned (· = t) q ∧ Unopposed t j q.shared
  have next : ∀ (q : ApiPool) e k, P q → q.slot t = .live j e k → ∃ c s r,
      Unfailing q (.step t c) ∧ exec partition t q.shared e c = some (s, r) ∧
        P (Machine.put q t ((api partition).settle t j s (k r))) := by
    rintro q e k ⟨past, owned, unopposed⟩ live
    obtain ⟨c, s, r, fine, answered⟩ := answer_possible sizes past live unopposed
    have ok : Unfailing q (.step t c) := by
      intro j' e' k' live'
      cases live.symm.trans live'
      exact fine
    have shared : (Machine.put q t ((api partition).settle t j s (k r))).shared = s :=
      settle_shared t j s _
    refine ⟨c, s, r, ok, answered, past.step (unfailing_any ok) (Machine.step_answer live answered),
      fun t' other act => ?_, fun id event t' other => ?_⟩
    · rw [shared] at act
      rw [Machine.put_of_ne other]
      exact owned t' other (by rwa [← active_congr (touch_tx other (exec_touch answered))])
    · rw [shared]
      by_contra held
      rcases held_after answered (by simpa using held) with before | ⟨own, -⟩
      · exact nomatch (unopposed id event t' other).symm.trans before
      · exact other own
  obtain ⟨q, r, before, ⟨-, owned', -⟩, ended, others⟩ :=
    Machine.runs_to_end (m := api partition) (s := p.shared) (b := .call e k) next live
      ⟨run, fun t _ => owned t nofun, unopposed⟩
  have gone : (q.slot t).isLive = false := by rw [ended]; rfl
  have st : (api partition).step q (.env (.abortTx t)) = some ⟨q.shared.abort t, q.slot⟩ := rfl
  refine ⟨⟨q.shared.abort t, q.slot⟩, r, before.step (a := .env (.abortTx t)) gone st, ?_, ended,
    others⟩
  intro t' _ act
  by_cases own : t' = t
  · subst own
    exact nomatch (abort_inactive t' q.shared).symm.trans act
  · exact owned' t' own (by rwa [← active_congr (abort_others own)])

/- Some live call is not opposed: one that holds an event, or any if none does. -/
theorem unopposed_possible (run : (api partition).Reach (Regime.any allowed).Ok migrated p)
    (owned : Owned (fun _ => False) p) {t₀ : Tid} (live₀ : (p.slot t₀).isLive = true) :
    ∃ t j e k, p.slot t = .live j e k ∧ Unopposed t j p.shared := by
  have taken : ∀ t, (p.slot t).isLive = true → ∃ j e k, p.slot t = .live j e k := by
    intro t live
    cases slot : p.slot t with
    | live j e k => exact ⟨j, e, k, rfl⟩
    | idle => rw [slot] at live; cases live
    | ended j r => rw [slot] at live; cases live
    | gone j => rw [slot] at live; cases live
  by_cases nobody : ∀ t id, p.shared.heldEvent t id = false
  · obtain ⟨j, e, k, live⟩ := taken t₀ live₀
    exact ⟨t₀, j, e, k, live, fun id _ t' _ => nobody t' id⟩
  · obtain ⟨t, some⟩ := not_forall.mp nobody
    obtain ⟨id, held⟩ := not_forall.mp some
    have held : p.shared.heldEvent t id = true := by simpa using held
    have act : p.shared.active t = true := by
      by_contra idle
      exact nomatch ((api_sound run).inv.wf.quietEvents t (by simpa using idle) id).symm.trans held
    obtain ⟨j, e, k, live⟩ := taken t (owned t nofun act)
    obtain ⟨j', job, event⟩ := holder_about run held
    rw [live] at job
    cases job
    refine ⟨t, j, e, k, live, fun id' event' t' other => ?_⟩
    cases Option.some.inj (event.symm.trans event')
    by_contra both
    have both : p.shared.heldEvent t' id = true := by simpa using both
    cases row : p.shared.events id with
    | none => simp [heldEvent, row] at held
    | some c =>
      simp only [heldEvent, row] at held both
      exact other (Cell.heldBy_unique both held)

/-- From every state that calls reach, whatever has failed and died on the way, every call that is
under way can come to its end without a further failure, and then no row is locked. -/
theorem no_deadlock (partition : String → String → Nat) (allowed : Job → Prop) (p : ApiPool)
    (sizes : ∀ config replica, allowed (.drainOnce config replica) → 0 ≤ config.batchSize)
    (run : (api partition).Reach (Regime.any allowed).Ok migrated p) :
    ∃ q, (api partition).Reach Unfailing p q ∧
      (∀ t, Machine.Rested (p.slot t) (q.slot t)) ∧
      ∀ t, q.shared.outbox.held t = [] ∧ ∀ id, q.shared.heldEvent t id = false := by
  obtain ⟨n, later⟩ := run.idle_after
  obtain ⟨p', first, slots, owned⟩ := orphans_end later run
  have past : (api partition).Reach (Regime.any allowed).Ok migrated p' :=
    run.trans (first.mono fun _ _ ok => unfailing_any ok)
  obtain ⟨q, rest, ⟨-, owned'⟩, rested⟩ := Machine.all_end (m := api partition) (p := p')
    (P := fun q => (api partition).Reach (Regime.any allowed).Ok migrated q ∧
      Owned (fun _ => False) q)
    (fun p t₀ ⟨past, owned⟩ live₀ => by
      obtain ⟨t, j, e, k, live, unopposed⟩ := unopposed_possible past owned live₀
      obtain ⟨q, r, run, owned, ended, others⟩ := call_ends sizes past owned live unopposed
      exact ⟨t, j, e, k, q, r, live, run,
        ⟨past.trans (run.mono fun _ _ ok => unfailing_any ok), owned⟩, ended, others⟩)
    (fun t le => by rw [slots]; exact later t le) ⟨past, owned⟩
  rw [slots] at rested
  have wf := (api_sound (past.trans (rest.mono fun _ _ ok => unfailing_any ok))).inv.wf
  refine ⟨q, first.trans rest, rested, fun t => ?_⟩
  have idle : q.shared.active t = false := by
    by_contra act
    exact nomatch (rested t).not_live.symm.trans (owned' t nofun (by simpa using act))
  exact ⟨wf.quietOutbox t idle, wf.quietEvents t idle⟩

/- Two calls for one event, of which the second waits for the first. -/
def oneWaits : List (Act Job Choice Ext) :=
  [.start 0 (.create (.checked "show" "hall" 2 0 "2026-12-01T12:00:00Z" passed)),
    .step 0 (.uuid "e"),
    .start 1 (.book {} "e" (.checked "user-1" 1 passed) {}), .step 1 .ok, .step 1 .ok,
    .start 2 (.book {} "e" (.checked "user-2" 2 passed) {}), .step 2 .ok]

theorem no_deadlock_waits : ∃ p q : ApiPool, (p.slot 2).isLive = true ∧
    (exec (fun _ _ => 0) 2 p.shared (.findEventForUpdate "e") .ok).isNone = true ∧
    (api fun _ _ => 0).Reach Unfailing p q ∧ (∀ t, Machine.Rested (p.slot t) (q.slot t)) ∧
    ∀ t, q.shared.outbox.held t = [] ∧ ∀ id, q.shared.heldEvent t id = false := by
  have replay : (((api fun _ _ => 0).run migrated oneWaits).map fun p => ((p.slot 2).isLive,
      (exec (fun _ _ => 0) 2 p.shared (.findEventForUpdate "e") .ok).isNone)) =
        some (true, true) := by decide +kernel
  obtain ⟨p, hp, waits⟩ := Option.map_eq_some_iff.mp replay
  obtain ⟨live, none⟩ := Prod.mk.inj waits
  -- no call of the run is a pass of the relay
  have run : (api fun _ _ => 0).Reach
      (Regime.any fun j => ∀ config replica, j ≠ .drainOnce config replica).Ok migrated p := by
    refine any_run hp fun t j started config replica same => ?_
    subst same
    simp [oneWaits] at started
  obtain ⟨q, rest⟩ := no_deadlock (fun _ _ => 0) _ p
    (fun config replica ok => absurd rfl (ok config replica)) run
  exact ⟨p, q, live, none, rest⟩

end Overbook
