import Overbook.Outbox.Work

/-! The attempts that outbox rows count: one for each committed drain that has selected the row and
failed to publish it. -/
namespace Overbook

open Async Prog ReadCommitted Kafka Store

def Exchange.refuses : Exchange → Bool
  | ⟨.sendBatch _, .error _⟩ => true
  | _ => false

def selected (id : Uuid) (events : List Exchange) : Bool := (chosen events).any (·.id == id)

def refused (events : List Exchange) : Bool := events.any Exchange.refuses

/- A COMMIT that takes effect, also where its reply is lost. -/
def commits (z : ApiEntry) : Bool :=
  match z.effect with
  | .commitTx => z.before.active z.task && (z.after.tx z.task).status == .idle
  | _ => false

/-- After the entries `past`, `z` commits a drain that has selected the row `id` and failed to
publish it. -/
def counts (id : Uuid) (past : List ApiEntry) (z : ApiEntry) : Bool :=
  commits z && selected id (eventsOf z.task past) && refused (eventsOf z.task past)

def failuresAfter (id : Uuid) : List ApiEntry → List ApiEntry → Nat
  | _, [] => 0
  | past, z :: rest => (if counts id past z then 1 else 0) + failuresAfter id (past ++ [z]) rest

def countedFailures (id : Uuid) (entries : List ApiEntry) : Nat := failuresAfter id [] entries

theorem failuresAfter_append (id : Uuid) (past entries later : List ApiEntry) :
    failuresAfter id past (entries ++ later) =
      failuresAfter id past entries + failuresAfter id (past ++ entries) later := by
  induction entries generalizing past with
  | nil => simp [failuresAfter]
  | cons y entries ih =>
    simp only [List.cons_append, failuresAfter, ih, List.append_assoc, List.nil_append]
    omega

theorem countedFailures_snoc (id : Uuid) (entries : List ApiEntry) (z : ApiEntry) :
    countedFailures id (entries ++ [z]) =
      countedFailures id entries + if counts id entries z then 1 else 0 :=
  failuresAfter_append id [] entries [z]

theorem countedFailures_pos {id : Uuid} {first : List ApiEntry} {z : ApiEntry}
    (yes : counts id first z = true) (last : List ApiEntry) :
    0 < countedFailures id (first ++ z :: last) := by
  have split : countedFailures id (first ++ z :: last) =
      failuresAfter id [] first + ((if counts id first z then 1 else 0) +
        failuresAfter id (first ++ [z]) last) := failuresAfter_append id [] first (z :: last)
  rw [split, if_pos yes]
  omega

def failure (maxAttempts : Int) (error : Err) (work : OutboxRow × Time) : List Exchange :=
  [⟨.dateNow, .ok work.2⟩,
    ⟨.updateOutbox [work.1.id] (failedPatch maxAttempts error work.1 work.2), .ok ()⟩]

/-- What a drain has been answered between BEGIN and COMMIT. -/
inductive Drains (maxAttempts : Int) : List Exchange → Prop
  | empty (limit : Int) (n : Nat) :
      Drains maxAttempts [⟨.selectPending limit, .ok []⟩, ⟨.countPending, .ok n⟩]
  | published (limit : Int) (rows : List OutboxRow)
      (batch : List (TopicMessages BookingConfirmedPayload)) (n : Nat) :
      Drains maxAttempts [⟨.selectPending limit, .ok rows⟩, ⟨.sendBatch batch, .ok ()⟩,
        ⟨.updateOutbox (rows.map (·.id)) publishedPatch, .ok ()⟩, ⟨.countPending, .ok n⟩]
  | failed (limit : Int) (work : List (OutboxRow × Time))
      (batch : List (TopicMessages BookingConfirmedPayload)) (error : Err) :
      Drains maxAttempts (⟨.selectPending limit, .ok (work.map (·.1))⟩ ::
        ⟨.sendBatch batch, .error error⟩ :: work.flatMap (failure maxAttempts error))

theorem runs_markFailed {maxAttempts : Int} {error : Err} {rows : List OutboxRow}
    {events : List Exchange} (run : Runs (markFailed maxAttempts error rows) events (.ok ())) :
    ∃ work : List (OutboxRow × Time), work.map (·.1) = rows ∧
      events = work.flatMap (failure maxAttempts error) := by
  induction rows generalizing events with
  | nil =>
    obtain ⟨rfl, -⟩ := runs_done run
    exact ⟨[], rfl, rfl⟩
  | cons row rows ih =>
    obtain ⟨now, rest, rfl, later⟩ := runs_next run
    obtain ⟨-, rest, rfl, later⟩ := runs_next later
    obtain ⟨work, rfl, rfl⟩ := ih later
    exact ⟨(row, now) :: work, rfl, rfl⟩

theorem runs_gauge {n m : Nat} {events : List Exchange}
    (run : Runs (do refreshPendingGauge; pure n : Service Nat) events (.ok m)) :
    ∃ k, events = [⟨.countPending, .ok k⟩] := by
  obtain ⟨u, first, _, gauge, after, rfl⟩ := runs_through run
  obtain ⟨rfl, -⟩ := runs_done after
  obtain ⟨k, rest, rfl, later⟩ := runs_next gauge
  obtain ⟨rfl, -⟩ := runs_done later
  exact ⟨k, rfl⟩

theorem runs_batch {config : OutboxConfig} {events : List Exchange} {n : Nat}
    (run : Runs (drainBatch config) events (.ok n)) : Drains config.maxAttempts events := by
  obtain ⟨rows, rest, rfl, later⟩ := runs_next run
  cases rows with
  | nil =>
    obtain ⟨k, rfl⟩ := runs_gauge later
    exact .empty _ k
  | cons row rows =>
    obtain ⟨a, first, last, tried, after, rfl⟩ := runs_through later
    obtain ⟨_, same, sends⟩ := runs_outcome tried
    cases same
    have sent : first = [⟨.sendBatch (byTopic ((row :: rows).map relayMessage)), a⟩] :=
      runs_await sends
    rw [sent]
    cases a with
    | error x =>
      have marks : Runs (do markFailed config.maxAttempts x (row :: rows); pure 0 : Service Nat)
        last (.ok n) := after
      obtain ⟨u, marks, _, marked, ended, rfl⟩ := runs_through marks
      obtain ⟨rfl, -⟩ := runs_done ended
      obtain ⟨work, rows_eq, rfl⟩ := runs_markFailed marked
      rw [List.append_nil, ← rows_eq]
      exact .failed _ work _ x
    | ok u =>
      have marks : Runs (do
          ask (.updateOutbox ((row :: rows).map (·.id)) publishedPatch)
          refreshPendingGauge
          pure (row :: rows).length : Service Nat) last (.ok n) := after
      obtain ⟨-, rest, rfl, gauge⟩ := runs_next marks
      obtain ⟨k, rfl⟩ := runs_gauge gauge
      exact .published _ (row :: rows) _ k

/-- What a committing drain makes of a row, and whether it counts a failure of it. A failure is
dated after the row was selected and the batch refused. -/
inductive Outcome (maxAttempts : Int) (events : List Exchange) (old : OutboxRow) : OutboxRow → Prop
  | kept : (selected old.id events && refused events) = false → Outcome maxAttempts events old old
  | published (now : Time) : (selected old.id events && refused events) = false →
      old.status = .pending → Outcome maxAttempts events old (publishedPatch.apply now old)
  | failed (now time : Time) (error : Err) (before after : List Exchange) :
      (selected old.id events && refused events) = true → old.status = .pending →
      events = before ++ ⟨.dateNow, .ok time⟩ :: after → old ∈ chosen before →
      refused before = true →
      Outcome maxAttempts events old ((failedPatch maxAttempts error old time).apply now old)

theorem marked_failure (maxAttempts : Int) (error : Err) (now : Time) (first : OutboxRow × Time)
    (work : List (OutboxRow × Time)) (row : OutboxRow) :
    marked now ((first :: work).flatMap (failure maxAttempts error)) row =
      marked now (work.flatMap (failure maxAttempts error)) (if row.id = first.1.id
        then (failedPatch maxAttempts error first.1 first.2).apply now row else row) := by
  have one : Exchange.marks now row ⟨.updateOutbox [first.1.id]
      (failedPatch maxAttempts error first.1 first.2), .ok ()⟩ = if row.id = first.1.id
        then (failedPatch maxAttempts error first.1 first.2).apply now row else row := by
    simp [Exchange.marks]
  rw [← one]
  rfl

theorem marked_failures {maxAttempts : Int} {error : Err} {now : Time}
    {work : List (OutboxRow × Time)} (nodup : (work.map (·.1.id)).Nodup) {row : OutboxRow}
    {time : Time} (mem : (row, time) ∈ work) :
    marked now (work.flatMap (failure maxAttempts error)) row =
      (failedPatch maxAttempts error row time).apply now row := by
  have other : ∀ (work : List (OutboxRow × Time)) (row : OutboxRow), row.id ∉ work.map (·.1.id) →
      marked now (work.flatMap (failure maxAttempts error)) row = row := by
    intro work row absent
    induction work with
    | nil => rfl
    | cons first work ih =>
      simp only [List.map_cons, List.mem_cons, not_or] at absent
      rw [marked_failure, if_neg absent.1]
      exact ih absent.2
  induction work with
  | nil => cases mem
  | cons first work ih =>
    simp only [List.map_cons, List.nodup_cons] at nodup
    rw [marked_failure]
    rcases List.mem_cons.mp mem with rfl | later
    · rw [if_pos rfl]
      exact other work _ nodup.1
    · have apart : row.id ≠ first.1.id := by
        intro same
        exact nodup.1 (same ▸ List.mem_map_of_mem later)
      rw [if_neg apart]
      exact ih nodup.2 later

theorem chosen_failed (maxAttempts : Int) (error : Err) (limit : Int) (rows : List OutboxRow)
    (batch : List (TopicMessages BookingConfirmedPayload)) (work : List (OutboxRow × Time)) :
    chosen (⟨.selectPending limit, .ok rows⟩ :: ⟨.sendBatch batch, .error error⟩ ::
      work.flatMap (failure maxAttempts error)) = rows := by
  have none : chosen (work.flatMap (failure maxAttempts error)) = [] := by
    induction work with
    | nil => rfl
    | cons first work ih =>
      rw [List.flatMap_cons, chosen_append, ih]
      rfl
  exact (congrArg (rows ++ ·) none).trans (List.append_nil rows)

theorem Drains.outcome {maxAttempts : Int} {events : List Exchange} (h : Drains maxAttempts events)
    {replica : Replica} {now : Time} {old : OutboxRow} (mem : old ∈ chosen events)
    (pending : old.status = .pending) (once : ((chosen events).map (·.id)).Nodup) :
    Outcome maxAttempts (⟨.enterDrain replica, .ok false⟩ :: ⟨.beginTx, .ok ()⟩ :: events) old
      (marked now events old) := by
  cases h with
  | empty limit n => cases mem
  | published limit rows batch n =>
    have known : (rows.map (·.id)).contains old.id = true := by
      simp only [chosen, List.flatMap_cons, Exchange.picks, List.flatMap_nil, List.append_nil] at mem
      simpa using ⟨old, mem, rfl⟩
    have view : marked now [⟨.selectPending limit, .ok rows⟩, ⟨.sendBatch batch, .ok ()⟩,
        ⟨.updateOutbox (rows.map (·.id)) publishedPatch, .ok ()⟩, ⟨.countPending, .ok n⟩] old =
        publishedPatch.apply now old := by
      simp only [marked, List.foldl_cons, List.foldl_nil, Exchange.marks, known, if_true]
    rw [view]
    refine .published now ?_ pending
    rw [show refused _ = false from rfl, Bool.and_false]
  | failed limit work batch error =>
    rw [chosen_failed] at mem once
    obtain ⟨⟨row, time⟩, mine, rfl⟩ := List.mem_map.mp mem
    rw [List.map_map] at once
    obtain ⟨earlier, later, rfl⟩ := List.append_of_mem mine
    have view : marked now (List.flatMap (failure maxAttempts error) _) row = _ :=
      marked_failures once mine
    rw [show marked now (_ :: _ :: _) row = marked now (List.flatMap _ _) row from rfl, view]
    refine .failed now time error (⟨.enterDrain replica, .ok false⟩ :: ⟨.beginTx, .ok ()⟩ ::
      ⟨.selectPending limit, .ok ((earlier ++ (row, time) :: later).map (·.1))⟩ ::
      ⟨.sendBatch batch, .error error⟩ :: earlier.flatMap (failure maxAttempts error))
      (⟨.updateOutbox [row.id] (failedPatch maxAttempts error row time), .ok ()⟩ ::
        later.flatMap (failure maxAttempts error)) ?_ pending ?_ ?_ rfl
    · have picked : selected row.id (⟨.enterDrain replica, .ok false⟩ :: ⟨.beginTx, .ok ()⟩ ::
          ⟨.selectPending limit, .ok ((earlier ++ (row, time) :: later).map (·.1))⟩ ::
          ⟨.sendBatch batch, .error error⟩ ::
          (earlier ++ (row, time) :: later).flatMap (failure maxAttempts error)) = true := by
        refine List.any_eq_true.mpr ⟨row, ?_, beq_self_eq_true _⟩
        exact (chosen_failed ..).symm ▸ mem
      rw [picked]
      rfl
    · simp [failure, List.flatMap_append]
    · exact (chosen_failed ..).symm ▸ mem

/-- Every drain has the same limit of attempts; anything else may happen. -/
def limitedTo (maxAttempts : Int) : Regime :=
  .any fun
    | .drainOnce config _ => config.maxAttempts = maxAttempts
    | _ => True

variable {partition : String → String → Nat} {R : Regime} {p : ApiPool} {first last : List ApiEntry}
  {z : ApiEntry} {maxAttempts : Int}

theorem commits_open (run : (api partition).History R.Ok migrated (first ++ z :: last) p)
    (yes : commits z = true) : z.effect = .commitTx ∧ z.before.active z.task = true ∧
      z.after = z.before.commitTx z.task := by
  obtain ⟨-, -, c, answered⟩ := entry_step run
  obtain ⟨t, e, r, s, s'⟩ := z
  unfold commits at yes
  split at yes
  · rename_i effect
    dsimp only at effect yes answered ⊢
    subst effect
    obtain ⟨act, ended⟩ := Bool.and_eq_true_iff.mp yes
    refine ⟨rfl, act, ?_⟩
    cases c <;> simp only [exec, failed, act, if_true, Option.some.injEq, Prod.mk.injEq,
      reduceCtorEq] at answered
    · exact answered.1.symm
    · rw [← answered.1] at ended
      simp [abort, act] at ended
    · exact answered.1.symm
  · cases yes

theorem commits_same (run : (api partition).History R.Ok migrated (first ++ z :: last) p)
    (no : commits z = false) : z.after.outbox.committed = z.before.outbox.committed := by
  obtain ⟨-, -, c, answered⟩ := entry_step run
  obtain ⟨t, e, r, s, s'⟩ := z
  dsimp only at answered ⊢
  rcases touch_commits (exec_touch answered) with ⟨rfl, act, rfl⟩ | ⟨-, same⟩
  · simp [commits, act, commitTx] at no
  · exact same

theorem commits_batch {config : OutboxConfig} {replica : Replica} {events : List Exchange}
    (waits : Awaits (Job.drainOnce config replica).code events .commitTx) :
    ∃ rest, events = ⟨.enterDrain replica, .ok false⟩ :: ⟨.beginTx, .ok ()⟩ :: rest ∧
      Drains config.maxAttempts rest := by
  rcases awaits_drain waits with ⟨-, no⟩ | ⟨rest, rfl, inside⟩ | no
  · cases no
  · rcases awaits_transaction inside with ⟨-, no⟩ | ⟨rest, rfl, body | ⟨n, run, -⟩⟩ | no
    · cases no
    · rcases awaits_batch body with ⟨-, no⟩ | no
      · cases no
      · exact no.elim
    · exact ⟨rest, rfl, runs_batch run⟩
    · cases no
  · cases no

/-- A COMMIT leaves every row with its outcome. -/
theorem commit_outcome
    (run : (api partition).History (limitedTo maxAttempts).Ok migrated (first ++ z :: last) p)
    (yes : commits z = true) {c : Cell OutboxRow} (hc : c ∈ z.before.outbox) :
    Outcome maxAttempts (eventsOf z.task first) c.committed (c.view z.task) := by
  obtain ⟨effect, act, -⟩ := commits_open run yes
  obtain ⟨r, j, k, -, before, shared, live, -⟩ := run.answer
  obtain ⟨-, here, -⟩ := entry_step run
  obtain ⟨t, e, a, s, s'⟩ := z
  dsimp only at effect act here live hc shared ⊢
  subst effect shared
  have wf := (api_sound before.reach).inv.wf
  have work := working before act
  cases held : c.heldBy t with
  | false =>
    rw [Cell.view_of_not_heldBy held]
    refine .kept ?_
    have absent : selected c.committed.id (eventsOf t first) = false := by
      refine List.any_eq_false.mpr fun row hrow same => ?_
      obtain ⟨d, hd, rfl⟩ := work.picked row hrow
      obtain ⟨hd, mine⟩ := Rows.mem_held.mp hd
      rw [cell_of_id wf hd hc (by simpa using same)] at mine
      exact nomatch held.symm.trans mine
    rw [absent, Bool.false_and]
  | true =>
    have mine : c ∈ r.shared.outbox.held t := Rows.mem_held.mpr ⟨hc, held⟩
    obtain ⟨known, view⟩ := work.held c mine
    have tracks := before.tracks t
    rw [live] at tracks
    by_cases other : ∀ config replica, j ≠ .drainOnce config replica
    · rw [chosen_nil ((others_only other).awaited tracks.awaits)] at known
      cases known
    · simp only [not_forall, not_not] at other
      obtain ⟨config, replica, rfl⟩ := other
      have allowed : (limitedTo maxAttempts).allowed (.drainOnce config replica) :=
        before.reach.allowed (fun _ _ _ ok => ok) (by rw [live]; rfl)
      have limit : config.maxAttempts = maxAttempts := allowed
      have pending : c.committed.status = .pending := by
        cases here act with
        | book _ _ _ _ _ _ _ _ owns => exact nomatch owns.held c mine
        | drain rows owns => exact owns.pending _ (owns.held c mine)
      have once : ((chosen (eventsOf t first)).map (·.id)).Nodup := by
        refine List.Nodup.map_on (fun row hrow row' hrow' same => ?_) work.once
        obtain ⟨d, hd, rfl⟩ := work.picked row hrow
        obtain ⟨d', hd', rfl⟩ := work.picked row' hrow'
        rw [cell_of_id wf (Rows.mem_held.mp hd).1 (Rows.mem_held.mp hd').1 same]
      obtain ⟨rest, events, drains⟩ := commits_batch tracks.awaits
      rw [events] at known once view ⊢
      rw [view, ← limit]
      exact drains.outcome known pending once

/-- The account of one row: its counter, its status and its date of publication. -/
structure Accounted (maxAttempts : Int) (entries : List ApiEntry) (r : OutboxRow) : Prop where
  attempts : r.attempts = countedFailures r.id entries
  pending : r.status = .pending → (r.attempts : Int) < max 1 maxAttempts
  failed : r.status = .failed → (r.attempts : Int) = max 1 maxAttempts
  published : r.status = .published → (r.attempts : Int) < max 1 maxAttempts
  publishedAt : r.publishedAt.isSome = true ↔ r.status = .published

structure Enqueued (r : OutboxRow) : Prop where
  pending : r.status = .pending
  attempts : r.attempts = 0
  unpublished : r.publishedAt = none

theorem Accounted.outcome {events : List Exchange} {entries : List ApiEntry} {old new : OutboxRow}
    (h : Accounted maxAttempts entries old) (outcome : Outcome maxAttempts events old new)
    (yes : commits z = true) (events_eq : events = eventsOf z.task entries) :
    Accounted maxAttempts (entries ++ [z]) new := by
  have counted : counts old.id entries z = (selected old.id events && refused events) := by
    rw [counts, yes, events_eq, Bool.true_and]
  obtain ⟨attempts, pending, failed, published, publishedAt⟩ := h
  cases outcome with
  | kept quiet =>
    refine ⟨?_, pending, failed, published, publishedAt⟩
    rw [countedFailures_snoc, counted, quiet, attempts]
    rfl
  | published now quiet was =>
    refine ⟨?_, nofun, nofun, fun _ => pending was, by simp [OutboxPatch.apply, publishedPatch]⟩
    show old.attempts = countedFailures old.id (entries ++ [z])
    rw [countedFailures_snoc, counted, quiet, attempts]
    rfl
  | failed now time error before after counts was =>
    have below := pending was
    have undated : old.publishedAt = none := by
      rw [← Option.not_isSome_iff_eq_none, publishedAt, was]
      exact nofun
    have once : old.attempts + 1 = countedFailures old.id (entries ++ [z]) := by
      rw [countedFailures_snoc, counted, counts, attempts]
      rfl
    have status : ((failedPatch maxAttempts error old time).apply now old).status =
        if maxAttempts ≤ ((old.attempts + 1 : Nat) : Int) then .failed else .pending := rfl
    have counter : ((failedPatch maxAttempts error old time).apply now old).attempts =
        old.attempts + 1 := rfl
    have date : ((failedPatch maxAttempts error old time).apply now old).publishedAt = none := undated
    constructor
    · exact counter.trans once
    · rw [status, counter]
      split
      · exact nofun
      · omega
    · rw [status, counter]
      split
      · omega
      · exact nofun
    · rw [status]
      split <;> exact nofun
    · rw [status, date]
      split <;> exact ⟨nofun, nofun⟩

theorem Enqueued.accounted {r : OutboxRow} {entries : List ApiEntry} (h : Enqueued r)
    (none : countedFailures r.id entries = 0) : Accounted maxAttempts entries r := by
  obtain ⟨pending, attempts, unpublished⟩ := h
  constructor
  · rw [attempts, none]
  · omega
  · rw [pending]
    exact nofun
  · rw [pending]
    exact nofun
  · rw [pending, unpublished]
    exact ⟨nofun, nofun⟩

def Effect.enqueues : Effect → Prop
  | .insertOutbox row => row.status = .pending ∧ row.attempts = 0
  | _ => True

theorem code_enqueues (j : Job) : j.code.Only Effect.enqueues := by
  have wraps : ∀ e : Effect, e.wraps → e.enqueues := by
    intro e wraps
    cases e <;> trivial
  have follows : ∀ e : Effect, e.follows → e.enqueues := by
    intro e follows
    cases e <;> trivial
  have seats : ∀ e : Effect, e.seats → e.enqueues := by
    intro e seats
    cases e <;> trivial
  cases j with
  | create dto => exact only_bind ((only_await _).mpr trivial) fun _ => trivial
  | book config eventId dto context =>
    refine only_bind (book_only ?_ wraps) fun _ => trivial
    refine only_bind (only_mono seats decrement_seats) fun result => ?_
    refine only_bind ((only_await _).mpr trivial) fun booking => ?_
    refine only_bind (only_runIf (only_bind ?_ fun _ => trivial)) fun _ => trivial
    exact only_bind ((only_await _).mpr trivial) fun _ => (only_await _).mpr ⟨rfl, rfl⟩
  | integrity eventId => exact only_bind (only_mono wraps integrity_wraps) fun _ => trivial
  | drainOnce config replica =>
    refine only_of_awaits fun events e waits => ?_
    rcases awaits_drain waits with ⟨-, rfl⟩ | ⟨rest, -, inside⟩ | rfl
    · trivial
    · rcases awaits_transaction inside with ⟨-, rfl⟩ | ⟨rest, -, body | ⟨_, -, rfl⟩⟩ | rfl
      · trivial
      · rcases awaits_batch body with ⟨-, rfl⟩ | after
        · trivial
        · exact follows e after
      · trivial
      · trivial
    · trivial

/-- The rule for the rows that open transactions have inserted: what holds of a row when it is
inserted and lasts, holds of each. -/
theorem open_rows {Q : ApiPool → OutboxRow → Prop}
    (inserts : ∀ q t c j row k m s, (api partition).Reach R.Ok migrated q →
      q.slot t = .live j (.insertOutbox row) k →
      exec partition t q.shared (.insertOutbox row) c = some (s, .ok m) → Q q m)
    (lasts : ∀ q q' a r, (api partition).Reach R.Ok migrated q → R.Ok q a →
      (api partition).step q a = some q' → Q q r → Q q' r)
    (run : (api partition).Reach R.Ok migrated p) (t : Tid) :
    ∀ r ∈ (p.shared.tx t).outbox, Q p r := by
  induction run with
  | refl => exact nofun
  | @step q q' a before ok st ih =>
    cases act : q'.shared.active t with
    | false =>
      rw [((api_sound (before.step ok st)).inv.wf.quiet t act).2.1]
      exact nofun
    | true =>
      have kept : ∀ r ∈ (q.shared.tx t).outbox, Q q' r := fun r hr =>
        lasts q q' a r before ok st (ih r hr)
      have framed : Frame t q.shared q'.shared → ∀ r ∈ (q'.shared.tx t).outbox, Q q' r := by
        intro f
        rw [f.tx act]
        exact kept
      have wf := (api_sound before).inv.wf
      cases Machine.steps_of_step st with
      | @start t' j =>
        have shared : (Machine.put q t' ((api partition).settle t' j q.shared _)).shared = q.shared :=
          settle_shared t' j q.shared ((api partition).code j)
        exact framed (shared.symm ▸ Frame.refl t q.shared)
      | kill => exact framed (.refl t _)
      | env happened => exact framed (ext_frame happened t)
      | @step t' c j e k s r live answered =>
        have shared : (Machine.put q t' ((api partition).settle t' j s (k r))).shared = s :=
          settle_shared t' j s _
        rw [shared] at act framed ⊢
        by_cases own : t' = t
        · subst own
          cases r with
          | error x =>
            rw [(exec_error answered act).2]
            exact kept
          | ok a =>
            cases exec_touch answered with
            | rest _ _ _ _ tx =>
              rw [tx]
              exact kept
            | begun =>
              rw [beginTx, setTx_self]
              exact nofun
            | committed => simp [commitTx, active] at act
            | aborted =>
              rw [abort_inactive] at act
              cases act
            | rolledBack => simp [rollbackTx, active] at act
            | booking =>
              rw [setTx_self]
              exact kept
            | message row m =>
              obtain ⟨-, -, -, state⟩ := insertOutbox_ok answered
              have rows := congrArg (fun s => (s.tx t').outbox) state
              simp only [setTx_self, List.append_cancel_left_eq, List.cons.injEq, and_true] at rows
              subst rows
              rw [setTx_self]
              intro r hr
              rcases List.mem_append.mp hr with old | new
              · exact kept r old
              · rw [List.mem_singleton.mp new]
                exact lasts q _ _ m before ok st (inserts q t' c j row k m _ before live answered)
            | selected =>
              rw [setTx_self]
              exact kept
            | _ => exact kept
        · exact framed (touch_frame wf (Ne.symm own) (exec_touch answered))

/-- The rows that open transactions insert are as `enqueue` makes them. -/
theorem enqueued (run : (api partition).Reach R.Ok migrated p) (t : Tid) :
    ∀ r ∈ (p.shared.tx t).outbox, Enqueued r := by
  refine open_rows (Q := fun _ r => Enqueued r) ?_ (fun _ _ _ _ _ _ _ h => h) run t
  intro q t c j row k m s before live answered
  have asked : (Effect.insertOutbox row).enqueues := before.only code_enqueues live
  obtain ⟨-, -, made, -⟩ := insertOutbox_ok answered
  rw [made]
  exact ⟨asked.1, asked.2, rfl⟩

theorem counts_known {id : Uuid}
    (run : (api partition).History R.Ok migrated (first ++ z :: last) p)
    (yes : counts id first z = true) : ∃ c ∈ z.before.outbox, c.committed.id = id := by
  simp only [counts, Bool.and_eq_true] at yes
  obtain ⟨⟨commit, picked⟩, -⟩ := yes
  obtain ⟨-, act, -⟩ := commits_open run commit
  obtain ⟨r, -, -, -, before, shared, -⟩ := run.answer
  rw [← shared] at act ⊢
  obtain ⟨row, hrow, same⟩ := List.any_eq_true.mp picked
  obtain ⟨c, hc, rfl⟩ := (working before act).picked row hrow
  exact ⟨c, (Rows.mem_held.mp hc).1, beq_iff_eq.mp same⟩

theorem ids_grow {s s' : Store} (h : Grows s s') :
    s.outbox.committed.map (·.id) ⊆ s'.outbox.committed.map (·.id) := by
  have ids : ∀ rows : List OutboxRow, rows.map (·.id) = (rows.map (·.envelope)).map (·.id) := by
    intro rows
    rw [List.map_map]
    rfl
  rw [ids s.outbox.committed, ids s'.outbox.committed]
  exact List.map_subset _ h.outbox.subset

/-- Failures are counted of committed rows only. -/
theorem uncounted {entries : List ApiEntry}
    (run : (api partition).History R.Ok migrated entries p) {id : Uuid}
    (absent : id ∉ p.shared.outbox.committed.map (·.id)) : countedFailures id entries = 0 := by
  induction run with
  | refl => rfl
  | @step entries q q' a before ok st ih =>
    have grown := ids_grow (api_grows before.reach (.step .refl ok st))
    have old : id ∉ q.shared.outbox.committed.map (·.id) := fun mem => absent (grown mem)
    have run := before.step ok st
    have unfolds := step_unfolds st
    generalize (api partition).logged q a = new at run unfolds
    cases unfolds with
    | answer z was =>
      rw [countedFailures_snoc, ih old]
      split
      · rename_i yes
        obtain ⟨c, hc, rfl⟩ := counts_known run yes
        rw [was] at hc
        exact absurd (List.mem_map_of_mem (List.mem_map_of_mem hc)) old
      · rfl
    | quiet => rw [List.append_nil]; exact ih old
    | env => rw [List.append_nil]; exact ih old

/-- After a COMMIT there are the rows of before, each with its outcome, and new ones. -/
theorem commit_rows
    (run : (api partition).History (limitedTo maxAttempts).Ok migrated (first ++ z :: last) p)
    (yes : commits z = true) : ∀ r ∈ z.after.outbox.committed,
      (∃ c ∈ z.before.outbox, r = c.view z.task ∧ r.id = c.committed.id ∧
        Outcome maxAttempts (eventsOf z.task first) c.committed r) ∨
      (Enqueued r ∧ r.id ∉ z.before.outbox.committed.map (·.id)) := by
  obtain ⟨inv, -, -⟩ := entry_step run
  obtain ⟨-, -, after⟩ := commits_open run yes
  intro r hr
  rw [after, commitTx, Rows.committed_insert, Rows.committed_commit] at hr
  rcases List.mem_append.mp hr with old | new
  · obtain ⟨c, hc, rfl⟩ := List.mem_map.mp old
    exact .inl ⟨c, hc, rfl, view_id inv.wf hc z.task, commit_outcome run yes hc⟩
  · obtain ⟨q, -, -, -, before, shared, -⟩ := run.answer
    refine .inr ⟨enqueued before.reach z.task r (shared ▸ new), ?_⟩
    exact inv.wf.outbox.apart z.task r.id (List.mem_map_of_mem new)

/-- In every run the account of every row is right. -/
theorem accounted {entries : List ApiEntry}
    (run : (api partition).History (limitedTo maxAttempts).Ok migrated entries p) :
    ∀ r ∈ p.shared.outbox.committed, Accounted maxAttempts entries r := by
  induction run with
  | refl => exact nofun
  | @step entries q q' a before ok st ih =>
    have run := before.step ok st
    have unfolds := step_unfolds st
    generalize (api partition).logged q a = new at run unfolds
    cases unfolds with
    | answer z was is =>
      rw [← is]
      rw [← was] at ih
      cases commit : commits z with
      | false =>
        intro r hr
        rw [commits_same run commit] at hr
        refine { ih r hr with attempts := ?_ }
        rw [countedFailures_snoc, counts, commit, Bool.false_and, Bool.false_and]
        exact (ih r hr).attempts
      | true =>
        intro r hr
        rcases commit_rows run commit r hr with ⟨c, hc, -, -, outcome⟩ | ⟨new, absent⟩
        · exact (ih _ (List.mem_map_of_mem hc)).outcome outcome commit rfl
        · refine new.accounted ?_
          rw [countedFailures_snoc, uncounted before (was ▸ absent)]
          split
          · rename_i yes
            obtain ⟨c, hc, same⟩ := counts_known run yes
            exact absurd (same ▸ List.mem_map_of_mem (List.mem_map_of_mem hc)) absent
          · rfl
    | quiet same =>
      rw [same, List.append_nil]
      exact ih
    | env x happened =>
      rw [(ext_tables happened).2, List.append_nil]
      exact ih

end Overbook
