import Overbook.Outbox.Attempts

/-! How long a row rests after a failed publish. -/
namespace Overbook

open Async Prog ReadCommitted Store

def Agreeing (entries : List ApiEntry) : Prop :=
  ∀ d ∈ entries, ∀ now, d.event = ⟨.dateNow, .ok now⟩ → now = d.before.clock

variable {partition : String → String → Nat} {R : Regime} {t : Tid} {s s' : Store} {p q : ApiPool}
  {entries first last : List ApiEntry} {z : ApiEntry} {maxAttempts : Int}

theorem abort_clock (t : Tid) (s : Store) : (s.abort t).clock = s.clock := by
  unfold abort
  split <;> rfl

theorem exec_clock {e : Effect} {c : Choice} {r : Except Err e.Answer}
    (h : exec partition t s e c = some (s', r)) : s'.clock = s.clock := by
  have gone : ∀ {e : Effect} {r : Except Err e.Answer}, failed t s = some (s', r) →
      s'.clock = s.clock := by
    intro e r h
    cases Option.some.inj h
    exact abort_clock t s
  cases e <;> cases c <;> first
    | exact gone h
    | (cases h; done)
    | (cases h; exact abort_clock t s)
    | (cases h; rfl)
    | (simp only [exec] at h; repeat' split at h) <;> first | (cases h; done) | (cases h; rfl)

theorem clock_grows (past : (api partition).Reach R.Ok migrated p)
    (run : (api partition).Reach R.Ok p q) : p.shared.clock ≤ q.shared.clock := by
  refine api_invariant (J := fun s => p.shared.clock ≤ s.clock) past run le_rfl ?_ ?_ ?_
  · intro t s e c s' r _ _ _ h he
    rwa [exec_clock he]
  · intro s d h
    exact le_trans h (Nat.le_add_right ..)
  · intro _ t s _ h
    rwa [abort_clock]

theorem abort_begun (t t' : Tid) (s : Store) :
    ((s.abort t).tx t').startedAt ≤ (s.tx t').startedAt := by
  unfold abort
  split
  · by_cases same : t' = t
    · subst same
      simp
    · simp [Function.update_of_ne same]
  · exact le_rfl

theorem begun_past (run : (api partition).Reach R.Ok migrated p) (t : Tid) :
    (p.shared.tx t).startedAt ≤ p.shared.clock := by
  refine api_invariant (J := fun s => (s.tx t).startedAt ≤ s.clock) .refl run le_rfl ?_ ?_ ?_
  · intro t' s e c s' r _ _ _ h he
    rw [exec_clock he]
    by_cases own : t = t'
    · subst own
      cases exec_touch he with
      | rest _ _ _ _ tx => rwa [tx]
      | begun => rw [beginTx, setTx_self]
      | committed => simp [commitTx]
      | aborted => exact le_trans (abort_begun t t s) h
      | rolledBack => simp [rollbackTx]
      | booking => rwa [setTx_self]
      | message => rwa [setTx_self]
      | selected => rwa [setTx_self]
      | _ => exact h
    · rwa [touch_tx own (exec_touch he)]
  · intro s d h
    exact le_trans h (Nat.le_add_right ..)
  · intro _ t' s _ h
    rw [abort_clock]
    exact le_trans (abort_begun t' t s) h

theorem clock_order {d : ApiEntry}
    (run : (api partition).History R.Ok migrated (first ++ d :: last) p) {x : ApiEntry}
    (hx : x ∈ first) : x.before.clock ≤ d.before.clock := by
  obtain ⟨r, before, shared, -⟩ := run.since
  obtain ⟨earlier, later, rfl⟩ := List.append_of_mem hx
  obtain ⟨r', past, shared', rest⟩ := before.since
  rw [← shared, ← shared']
  exact clock_grows past.reach rest

/-- The query returns rows that are committed and due. -/
theorem select_due {y : ApiEntry} {limit : Int} {rows : List OutboxRow}
    (run : (api partition).History R.Ok migrated (first ++ y :: last) p)
    (query : y.event = ⟨.selectPending limit, .ok rows⟩) :
    ∀ r ∈ rows, r ∈ y.before.outbox.committed ∧ r.availableAt ≤ y.before.clock := by
  obtain ⟨q, before, shared, -⟩ := run.since
  obtain ⟨-, -, c, answered⟩ := entry_step run
  have begun := shared ▸ begun_past before.reach y.task
  obtain ⟨t, e, a, s, s'⟩ := y
  cases query
  obtain ⟨-, act, sel, -⟩ := selectPending_ok answered
  intro r hr
  obtain ⟨c, hc, rfl, eligible⟩ := selects_eligible sel r hr
  refine ⟨List.mem_map_of_mem hc, ?_⟩
  simp only [Store.eligible, now, act, if_true, Bool.and_eq_true, decide_eq_true_eq] at eligible
  exact le_trans eligible.1.2 begun

theorem picks_query {y : Exchange} {r : OutboxRow} (h : r ∈ Exchange.picks y) :
    ∃ limit rows, y = ⟨.selectPending limit, .ok rows⟩ ∧ r ∈ rows := by
  unfold Exchange.picks at h
  split at h
  · rename_i limit rows
    exact ⟨limit, rows, rfl, h⟩
  · cases h

theorem chosen_entry {r : OutboxRow} (h : r ∈ chosen (eventsOf t entries)) :
    ∃ y ∈ entries, ∃ limit rows, y.event = ⟨.selectPending limit, .ok rows⟩ ∧ r ∈ rows := by
  obtain ⟨event, mem, hr⟩ := List.mem_flatMap.mp h
  obtain ⟨y, hy, rfl⟩ := List.mem_map.mp mem
  exact ⟨y, (List.mem_filter.mp hy).1, picks_query hr⟩

theorem refused_entry (h : refused (eventsOf t entries) = true) :
    ∃ x ∈ entries, x.task = t ∧ Exchange.refuses x.event = true := by
  obtain ⟨event, mem, refuses⟩ := List.any_eq_true.mp h
  obtain ⟨x, hx, rfl⟩ := List.mem_map.mp mem
  obtain ⟨mem, own⟩ := List.mem_filter.mp hx
  exact ⟨x, mem, beq_iff_eq.mp own, refuses⟩

/-- A failure is dated when the broker has refused the batch, and the row was due before. -/
theorem failure_dated (run : (api partition).History R.Ok migrated (first ++ z :: last) p)
    (agree : Agreeing first) {old : OutboxRow} {time : Time} {before after : List Exchange}
    (events : eventsOf z.task first = before ++ ⟨.dateNow, .ok time⟩ :: after)
    (known : old ∈ chosen before) (failing : refused before = true) :
    old.availableAt ≤ time ∧
      ∃ x ∈ first, x.task = z.task ∧ Exchange.refuses x.event = true ∧ x.before.clock ≤ time := by
  obtain ⟨part, d, rest, rfl, -, reading, early, -⟩ := eventsOf_split events
  have now : time = d.before.clock := agree d (by simp) time reading
  rw [List.append_assoc, List.cons_append] at run
  constructor
  · obtain ⟨y, hy, limit, rows, query, hr⟩ := chosen_entry (early ▸ known)
    have earlier := clock_order run hy
    obtain ⟨part', rest', rfl⟩ := List.append_of_mem hy
    rw [List.append_assoc, List.cons_append] at run
    rw [now]
    exact le_trans (select_due run query old hr).2 earlier
  · obtain ⟨x, hx, own, refuses⟩ := refused_entry (early ▸ failing)
    exact ⟨x, List.mem_append_left _ hx, own, refuses, now ▸ clock_order run hx⟩

theorem Outcome.dated {events : List Exchange} {old new : OutboxRow}
    (h : Outcome maxAttempts events old new)
    (counted : (selected old.id events && refused events) = true) :
    ∃ time before after, events = before ++ ⟨.dateNow, .ok time⟩ :: after ∧ old ∈ chosen before ∧
      refused before = true ∧ new.availableAt = time + backoffMs (old.attempts + 1) := by
  cases h with
  | kept quiet => exact nomatch quiet.symm.trans counted
  | published now quiet => exact nomatch quiet.symm.trans counted
  | failed now time error before after _ _ split known failing =>
    exact ⟨time, before, after, split, known, failing, rfl⟩

theorem Outcome.later (run : (api partition).History R.Ok migrated (first ++ z :: last) p)
    (agree : Agreeing first) {old new : OutboxRow}
    (h : Outcome maxAttempts (eventsOf z.task first) old new) : old.availableAt ≤ new.availableAt := by
  cases h with
  | kept => exact le_rfl
  | published => exact le_rfl
  | failed now time error before after _ _ split known failing =>
    have due := (failure_dated run agree split known failing).1
    exact le_trans due (Nat.le_add_right ..)

/-- With agreeing clocks, a row is due after its failure only when its backoff is over. -/
theorem deferred {id : Uuid}
    (run : (api partition).History (limitedTo maxAttempts).Ok migrated entries p)
    (agree : Agreeing entries) (split : entries = first ++ z :: last)
    (yes : counts id first z = true) :
    ∃ x ∈ first, x.task = z.task ∧ Exchange.refuses x.event = true ∧
      ∀ r ∈ p.shared.outbox.committed, r.id = id →
        x.before.clock + backoffMs (countedFailures id (first ++ [z])) ≤ r.availableAt := by
  induction run generalizing last with
  | refl => simp at split
  | @step entries q q' a before ok st ih =>
    have run := before.step ok st
    have unfolds := step_unfolds st
    generalize (api partition).logged q a = new at run unfolds agree split
    cases unfolds with
    | answer w was is =>
      have past : Agreeing entries := fun d hd => agree d (List.mem_append_left _ hd)
      rw [← is]
      rw [← was] at ih
      rcases List.eq_nil_or_concat last with rfl | ⟨earlier, y, rfl⟩
      · -- the failure itself
        obtain ⟨rfl, eq⟩ := List.append_inj' split rfl
        cases List.singleton_inj.mp eq
        obtain ⟨c, hc, rfl⟩ := counts_known run yes
        have both := yes
        simp only [counts, Bool.and_eq_true] at both
        obtain ⟨⟨commit, picked⟩, failing⟩ := both
        have outcome := commit_outcome run commit hc
        obtain ⟨time, early, late, events, known, refusal, due⟩ :=
          outcome.dated (by rw [picked, failing]; rfl)
        obtain ⟨-, x, hx, own, refuses, dated⟩ := failure_dated run past events known refusal
        refine ⟨x, hx, own, refuses, fun r hr same => ?_⟩
        rcases commit_rows run commit r hr with ⟨d, hd, rfl, id_eq, -⟩ | ⟨-, absent⟩
        · obtain ⟨inv, -, -⟩ := entry_step run
          cases cell_of_id inv.wf hd hc (id_eq.symm.trans same)
          have attempts := (accounted before c.committed (was ▸ List.mem_map_of_mem hc)).attempts
          rw [countedFailures_snoc, if_pos yes, ← attempts, due]
          exact Nat.add_le_add_right dated _
        · rw [same] at absent
          exact absurd (List.mem_map_of_mem (List.mem_map_of_mem hc)) absent
      · rw [List.concat_eq_append, ← List.cons_append, ← List.append_assoc] at split
        obtain ⟨rfl, eq⟩ := List.append_inj' split rfl
        cases List.singleton_inj.mp eq
        obtain ⟨x, hx, own, refuses, later⟩ := ih past rfl
        refine ⟨x, hx, own, refuses, fun r hr same => ?_⟩
        cases commit : commits w with
        | false => exact later r (commits_same run commit ▸ hr) same
        | true =>
          rcases commit_rows run commit r hr with ⟨c, hc, -, id_eq, outcome⟩ | ⟨-, absent⟩
          · have old := later c.committed (List.mem_map_of_mem hc) (id_eq.symm.trans same)
            exact le_trans old (outcome.later run past)
          · -- a row that failed before is not new
            have none := uncounted before (was ▸ absent)
            rw [same] at none
            have some := countedFailures_pos yes earlier
            omega
    | quiet same =>
      rw [List.append_nil] at agree split
      rw [same]
      exact ih agree split
    | env x happened =>
      rw [List.append_nil] at agree split
      rw [(ext_tables happened).2]
      exact ih agree split

/-- Under one limit of attempts, with any failures, rollbacks and crashes: every row counts the
committed drains that have selected it and failed to publish it, and its status and date of
publication agree with the count. Only a COMMIT changes a row. When the clocks agree, a row is not
selected again until the backoff of its last failure is over. -/
theorem attempts_exact (partition : String → String → Nat) (maxAttempts : Int)
    (entries : List ApiEntry) (p : ApiPool)
    (run : (api partition).History (limitedTo maxAttempts).Ok migrated entries p) :
    (∀ r ∈ p.shared.outbox.committed, Accounted maxAttempts entries r) ∧
    (∀ a q, (limitedTo maxAttempts).Ok p a → (api partition).step p a = some q →
      q.shared.outbox.committed = p.shared.outbox.committed ∨
        ∃ z, (api partition).logged p a = [z] ∧ commits z = true) ∧
    (Agreeing entries → ∀ first z between y last id,
      entries = first ++ z :: (between ++ y :: last) → counts id first z = true →
      id ∈ (Exchange.picks y.event).map (·.id) →
      ∃ x ∈ first, x.task = z.task ∧ Exchange.refuses x.event = true ∧
        x.before.clock + backoffMs (countedFailures id (first ++ [z])) ≤ y.before.clock) := by
  refine ⟨accounted run, ?_, ?_⟩
  · intro a q ok st
    have run := run.step ok st
    have unfolds := step_unfolds st
    generalize (api partition).logged p a = new at run unfolds
    cases unfolds with
    | answer z was is =>
      cases commit : commits z with
      | true => exact .inr ⟨z, rfl, commit⟩
      | false => exact .inl (by rw [← is, ← was, commits_same run commit])
    | quiet same => exact .inl (by rw [same])
    | env x happened => exact .inl (ext_tables happened).2
  · rintro agree first z between y last id rfl yes again
    rw [← List.cons_append, ← List.append_assoc] at run agree
    obtain ⟨q, before, shared, -⟩ := run.since
    obtain ⟨x, hx, own, refuses, later⟩ :=
      deferred before (fun d hd => agree d (List.mem_append_left _ hd)) rfl yes
    refine ⟨x, hx, own, refuses, ?_⟩
    obtain ⟨r, hr, same⟩ := List.mem_map.mp again
    obtain ⟨limit, rows, query, hr⟩ := picks_query hr
    obtain ⟨mem, due⟩ := select_due run query r hr
    exact le_trans (later r (shared ▸ mem) same) due

/- A booking whose first publish is refused; the next relay selects its row when it is due. -/
def refusedOnce : List (Act Job Choice Ext) :=
  [.start 0 (.create (.checked "show" "hall" 2 0 "2026-12-01T12:00:00Z" passed)),
    .step 0 (.uuid "e"),
    .start 1 (.book {} "e" (.checked "user-1" 1 passed) {}),
    .step 1 .ok, .step 1 .ok, .step 1 .ok, .step 1 (.uuid "b1"), .step 1 (.time 0),
    .step 1 (.uuid "m1"), .step 1 .ok,
    .start 2 (.drainOnce {} 0), .step 2 .ok, .step 2 .ok, .step 2 (.rows [row]),
    .step 2 (.refused []), .step 2 (.time 0), .step 2 .ok, .step 2 .ok,
    .env (.tick 500),
    .start 3 (.drainOnce {} 1), .step 3 .ok, .step 3 .ok, .step 3 (.rows [again])]
where
  row : OutboxRow := ⟨"m1", "booking", "b1", "booking.confirmed", "booking.events", "e",
    ⟨"b1", "e", "user-1", 1, "show", 0, none⟩, .pending, 0, 0, none, none, 0⟩
  again : OutboxRow :=
    { row with attempts := 1, availableAt := 500, lastError := some lost.message }

def tenAttempts (_ : ApiPool) : Act Job Choice Ext → Bool
  | .start _ (.drainOnce config _) => config.maxAttempts == 10
  | _ => true

theorem tenAttempts_ok (q : ApiPool) (a : Act Job Choice Ext) (h : tenAttempts q a = true) :
    (limitedTo 10).Ok q a := by
  cases a with
  | start t j =>
    cases j with
    | drainOnce config replica => exact beq_iff_eq.mp h
    | _ => trivial
  | step t c => exact fun _ _ _ _ => trivial
  | kill t => trivial
  | env x => cases x <;> trivial

def agrees (d : ApiEntry) : Bool :=
  match d.event with
  | ⟨.dateNow, .ok now⟩ => now == d.before.clock
  | _ => true

theorem agreeing_of_all (h : entries.all agrees = true) : Agreeing entries := by
  intro d hd now reading
  have here := List.all_eq_true.mp h d hd
  unfold agrees at here
  rw [reading] at here
  exact beq_iff_eq.mp here

/- After 14 entries a failure is counted, and the third entry from there selects the row again. -/
def countsAndSelects (entries : List ApiEntry) : Bool :=
  match entries.drop 14 with
  | [z, _, _, y] => counts "m1" (entries.take 14) z &&
      (Exchange.picks y.event).map (·.id) == ["m1"] && entries.all agrees
  | _ => false

theorem attempts_exact_refused : ∃ (entries first : List ApiEntry) (z : ApiEntry)
    (between : List ApiEntry) (y : ApiEntry) (p : ApiPool),
    (api fun _ _ => 0).History (limitedTo 10).Ok migrated entries p ∧
      entries = first ++ z :: (between ++ y :: []) ∧ counts "m1" first z = true ∧
      ∃ x ∈ first, x.task = z.task ∧ Exchange.refuses x.event = true ∧
        x.before.clock + backoffMs (countedFailures "m1" (first ++ [z])) ≤ y.before.clock := by
  have replay : (((api fun _ _ => 0).replay tenAttempts migrated refusedOnce).map fun x =>
      countsAndSelects x.1) = some true := by decide +kernel
  obtain ⟨⟨entries, p⟩, hp, seen⟩ := Option.map_eq_some_iff.mp replay
  have run : (api fun _ _ => 0).History (limitedTo 10).Ok migrated entries p :=
    Machine.History.of_replay tenAttempts_ok .refl hp
  unfold countsAndSelects at seen
  split at seen
  · rename_i z a b y rest
    simp only [Bool.and_eq_true, beq_iff_eq] at seen
    obtain ⟨⟨counted, picked⟩, agree⟩ := seen
    have split : entries = entries.take 14 ++ z :: ([a, b] ++ y :: []) := by
      rw [List.cons_append, List.cons_append, List.nil_append, ← rest, List.take_append_drop]
    exact ⟨entries, _, z, [a, b], y, p, run, split, counted,
      (attempts_exact (fun _ _ => 0) 10 entries p run).2.2 (agreeing_of_all agree) _ z [a, b] y []
        "m1" split counted (by simp [picked])⟩
  · cases seen

end Overbook
