import Mathlib.Algebra.BigOperators.Group.Finset.Basic
import Mathlib.Algebra.Order.BigOperators.Group.Finset
import Mathlib.Data.List.Dedup
import Overbook.Bookings.AllOrNothing
import Overbook.Bookings.Events
import Overbook.Outbox.Attempts
import Overbook.Outbox.Published

/-! The stats of the outbox beside what the drains have answered: every published row has been
counted by one drain, and by no other. -/
namespace Overbook

open Async Prog ReadCommitted Kafka Store

def publishes (events : List Exchange) : Nat :=
  if refused events then 0 else (chosen events).length

def publishedCount (s : Store) : Nat :=
  s.outbox.committed.countP fun r => r.status == .published

variable {partition : String → String → Nat} {R : Regime} {p : ApiPool} {t : Tid} {j : Job}
  {entries first last : List ApiEntry} {z : ApiEntry} {events : List Exchange} {e : Effect}

theorem publishes_nil (none : chosen events = []) : publishes events = 0 := by
  unfold publishes
  rw [none]
  split <;> rfl

/-! What a COMMIT adds to the rows that are published. -/

theorem countP_split {α : Type} {f g h : α → Bool} {l : List α}
    (split : ∀ x ∈ l, (f x).toNat = (g x).toNat + (h x).toNat) :
    l.countP f = l.countP g + l.countP h := by
  induction l with
  | nil => rfl
  | cons x l ih =>
    have one := split x (List.mem_cons_self ..)
    have rest := ih fun y hy => split y (List.mem_cons_of_mem _ hy)
    simp only [List.countP_cons, rest]
    cases hf : f x <;> cases hg : g x <;> cases hh : h x <;> simp_all <;> omega

/-- A drain publishes the rows it has selected, or none of them where the broker has refused. -/
theorem Drains.published_iff {maxAttempts : Int} (h : Drains maxAttempts events) {now : Time}
    {old : OutboxRow} (mem : old ∈ chosen events) (once : ((chosen events).map (·.id)).Nodup) :
    ((marked now events old).status == .published) = !refused events := by
  cases h with
  | empty limit n => cases mem
  | published limit rows batch n =>
    have known : (rows.map (·.id)).contains old.id = true := by
      simp only [chosen, List.flatMap_cons, Exchange.picks, List.flatMap_nil, List.append_nil] at mem
      simpa using ⟨old, mem, rfl⟩
    have view : marked now [⟨.selectPending limit, .ok rows⟩, ⟨.sendBatch batch, .ok ()⟩,
        ⟨.updateOutbox (rows.map (·.id)) publishedPatch, .ok ()⟩, ⟨.countPending, .ok n⟩] old =
        publishedPatch.apply now old := by
      simp only [marked, List.foldl_cons, List.foldl_nil, Exchange.marks, known, if_true]
    rw [view]
    rfl
  | failed limit work batch error =>
    rw [chosen_failed] at mem once
    obtain ⟨⟨row, time⟩, mine, rfl⟩ := List.mem_map.mp mem
    rw [List.map_map] at once
    have view : marked now (List.flatMap (failure maxAttempts error) work) row = _ :=
      marked_failures once mine
    rw [show marked now (_ :: _ :: _) row = marked now (List.flatMap _ _) row from rfl, view]
    have unpublished : ((failedPatch maxAttempts error row time).apply now row).status ≠
        .published := by
      simp only [OutboxPatch.apply, failedPatch, Option.getD_some]
      split <;> simp
    rw [beq_eq_false_iff_ne.mpr unpublished]
    rfl

theorem Working.length {s : Store} (wf : WF s) (h : Working t events s) :
    (s.outbox.held t).length = (chosen events).length := by
  have rows : ((s.outbox.held t).map (·.committed)).Nodup := by
    have ids : (s.outbox.committed.map (·.id)).Nodup := wf.outbox.nodup
    exact (List.filter_sublist.map _).nodup (List.Nodup.of_map _ ids)
  have same : ((s.outbox.held t).map (·.committed)).Perm (chosen events) := by
    refine (List.perm_ext_iff_of_nodup rows h.once).mpr fun r => ⟨fun there => ?_, fun there => ?_⟩
    · obtain ⟨c, hc, rfl⟩ := List.mem_map.mp there
      exact (h.held c hc).1
    · obtain ⟨c, hc, rfl⟩ := h.picked r there
      exact List.mem_map_of_mem hc
  rw [← same.length_eq, List.length_map]

/-- What a committing task makes of a row it holds. -/
theorem commit_publishes (run : (api partition).History R.Ok migrated (first ++ z :: last) p)
    (yes : commits z = true) {c : Cell OutboxRow} (hc : c ∈ z.before.outbox)
    (held : c.heldBy z.task = true) :
    ((c.view z.task).status == .published) = !refused (eventsOf z.task first) := by
  obtain ⟨effect, act, -⟩ := commits_open run yes
  obtain ⟨r, j, k, -, before, shared, live, -⟩ := run.answer
  obtain ⟨t, e, a, s, s'⟩ := z
  dsimp only at effect act live hc shared held ⊢
  subst effect shared
  have wf := (api_sound before.reach).inv.wf
  have work := working before act
  have mine : c ∈ r.shared.outbox.held t := Rows.mem_held.mpr ⟨hc, held⟩
  obtain ⟨known, view⟩ := work.held c mine
  have tracks := before.tracks t
  rw [live] at tracks
  by_cases other : ∀ config replica, j ≠ .drainOnce config replica
  · rw [chosen_nil ((others_only other).awaited tracks.awaits)] at known
    cases known
  · simp only [not_forall, not_not] at other
    obtain ⟨config, replica, rfl⟩ := other
    have once : ((chosen (eventsOf t first)).map (·.id)).Nodup := by
      refine List.Nodup.map_on (fun row hrow row' hrow' same => ?_) work.once
      obtain ⟨d, hd, rfl⟩ := work.picked row hrow
      obtain ⟨d', hd', rfl⟩ := work.picked row' hrow'
      rw [cell_of_id wf (Rows.mem_held.mp hd).1 (Rows.mem_held.mp hd').1 same]
    obtain ⟨rest, events, drains⟩ := commits_batch tracks.awaits
    rw [events] at known once view ⊢
    rw [view]
    exact drains.published_iff known once

/-- A COMMIT adds the rows that its task publishes, and nothing else does. -/
theorem commit_count (run : (api partition).History R.Ok migrated (first ++ z :: last) p)
    (yes : commits z = true) :
    publishedCount z.after = publishedCount z.before + publishes (eventsOf z.task first) := by
  obtain ⟨inv, -, -⟩ := entry_step run
  obtain ⟨-, act, after⟩ := commits_open run yes
  obtain ⟨q, -, -, -, before, shared, -⟩ := run.answer
  have work : Working z.task (eventsOf z.task first) z.before := by
    rw [← shared] at act ⊢
    exact working before act
  have fresh : ((z.before.tx z.task).outbox.countP fun r => r.status == .published) = 0 := by
    refine List.countP_eq_zero.mpr fun r hr published => ?_
    have pending := (enqueued before.reach z.task r (shared ▸ hr)).pending
    rw [pending] at published
    cases published
  have rows : publishedCount z.after =
      z.before.outbox.countP fun c => (c.view z.task).status == .published := by
    rw [publishedCount, after, commitTx, Rows.committed_insert, Rows.committed_commit,
      List.countP_append, fresh, List.countP_map]
    rfl
  have held : (z.before.outbox.countP fun c =>
      c.heldBy z.task && !refused (eventsOf z.task first)) = publishes (eventsOf z.task first) := by
    unfold publishes
    cases refused (eventsOf z.task first) with
    | true => simp
    | false =>
      rw [← work.length inv.wf]
      simp [Rows.held, List.countP_eq_length_filter]
  have before' : publishedCount z.before =
      z.before.outbox.countP fun c => c.committed.status == .published := by
    rw [publishedCount, Rows.committed, List.countP_map]
    rfl
  rw [rows, before', ← held]
  refine countP_split fun c hc => ?_
  cases mine : c.heldBy z.task with
  | false => simp [Cell.view_of_not_heldBy mine]
  | true =>
    have pending : c.committed.status = .pending := by
      rw [← shared] at hc
      exact (backed before.reach).held c hc z.task mine
    rw [commit_publishes run yes hc mine, pending]
    simp

/-! What the answers of the drains add up to. -/

def credit (events : List Exchange) : Nat :=
  if events.any Exchange.commits then publishes events else 0

theorem credit_none (none : ∀ y ∈ events, Exchange.commits y = false) : credit events = 0 := by
  have no : events.any Exchange.commits = false := List.any_eq_false.mpr fun y hy => by simp [none y hy]
  rw [credit, no]
  rfl

theorem chosen_snoc (y : Exchange) : chosen (events ++ [y]) = chosen events ++ y.picks := by
  rw [chosen_append]
  exact congrArg (chosen events ++ ·) (List.append_nil _)

theorem publishes_snoc {y : Exchange} (picks : y.picks = []) (refuses : y.refuses = false) :
    publishes (events ++ [y]) = publishes events := by
  have same : refused (events ++ [y]) = refused events := by simp [refused, refuses]
  rw [publishes, chosen_snoc, picks, List.append_nil, same, publishes]

theorem credit_snoc {y : Exchange} (picks : y.picks = []) (refuses : y.refuses = false)
    (commits : Exchange.commits y = false) : credit (events ++ [y]) = credit events := by
  have same : (events ++ [y]).any Exchange.commits = events.any Exchange.commits := by simp [commits]
  rw [credit, publishes_snoc picks refuses, same, credit]

theorem drains_commit_nothing {config : OutboxConfig} :
    (drainBatch config).Only fun e => ∀ r, Exchange.commits ⟨e, r⟩ = false :=
  only_mono (fun e drains r => by cases e <;> first | rfl | exact drains.elim) drainBatch_drains

theorem awaits_after {config : OutboxConfig} {replica : Replica}
    (waits : Awaits (Job.drainOnce config replica).code events e) :
    ((∀ y ∈ events, Exchange.commits y = false) ∧
      (e = .commitTx ∨ ∀ r, Exchange.commits ⟨e, r⟩ = false)) ∨
        e = .rollbackTx ∨ e = .leaveDrain replica := by
  rcases awaits_drain waits with ⟨rfl, rfl⟩ | ⟨rest, rfl, inside⟩ | rfl
  · exact .inl ⟨fun y none => absurd none List.not_mem_nil, .inr fun _ => rfl⟩
  · rcases awaits_transaction inside with ⟨rfl, rfl⟩ | ⟨rest, rfl, body⟩ | rfl
    · refine .inl ⟨fun y one => ?_, .inr fun _ => rfl⟩
      cases List.mem_singleton.mp one
      rfl
    · have opened : (∀ y ∈ rest, Exchange.commits y = false) → ∀ y ∈
          (⟨.enterDrain replica, .ok false⟩ :: ⟨.beginTx, .ok ()⟩ :: rest : List Exchange),
          Exchange.commits y = false := by
        intro none y hy
        rcases List.mem_cons.mp hy with rfl | hy
        · rfl
        · rcases List.mem_cons.mp hy with rfl | hy
          · rfl
          · exact none y hy
      rcases body with running | ⟨n, ran, rfl⟩
      · exact .inl ⟨opened fun y hy => drains_commit_nothing.awaited running y hy _,
          .inr (drains_commit_nothing.awaits running)⟩
      · exact .inl ⟨opened fun y hy => runs_only ran drains_commit_nothing y hy _, .inl rfl⟩
    · exact .inr (.inl rfl)
  · exact .inr (.inr rfl)

/-- A task claims rows with the answer to its COMMIT, and with no other. -/
theorem credit_step (waits : Awaits j.code events e) (r : Except Err e.Answer) :
    (Exchange.commits ⟨e, r⟩ = true → credit events = 0 ∧
      credit (events ++ [⟨e, r⟩]) = publishes events) ∧
    (Exchange.commits ⟨e, r⟩ = false → credit (events ++ [⟨e, r⟩]) = credit events) := by
  by_cases other : ∀ config replica, j ≠ .drainOnce config replica
  · have only := others_only other
    have none := chosen_nil (only.awaited waits)
    have picks : Exchange.picks ⟨e, r⟩ = [] := by
      have own := only.awaits waits
      cases e <;> first | rfl | exact absurd trivial own
    have zero : credit events = 0 ∧ credit (events ++ [⟨e, r⟩]) = 0 := by
      refine ⟨?_, ?_⟩
      · rw [credit, publishes_nil none, ite_self]
      · rw [credit, publishes_nil (by rw [chosen_snoc, none, picks]; rfl), ite_self]
    exact ⟨fun _ => ⟨zero.1, zero.2.trans (publishes_nil none).symm⟩,
      fun _ => zero.2.trans zero.1.symm⟩
  · simp only [not_forall, not_not] at other
    obtain ⟨config, replica, rfl⟩ := other
    rcases awaits_after waits with ⟨none, next⟩ | rfl | rfl
    · refine ⟨fun yes => ?_, fun no => ?_⟩
      · rcases next with rfl | never
        · refine ⟨credit_none none, ?_⟩
          have any : (events ++ [(⟨.commitTx, r⟩ : Exchange)]).any Exchange.commits = true := by
            rw [List.any_append]
            simp [yes]
          rw [credit, any, if_pos rfl, publishes_snoc rfl rfl]
        · exact nomatch yes.symm.trans (never r)
      · rw [credit_none none, credit_none]
        intro y hy
        rcases List.mem_append.mp hy with old | new
        · exact none y old
        · cases List.mem_singleton.mp new
          exact no
    · exact ⟨nofun, credit_snoc rfl rfl⟩
    · exact ⟨nofun, credit_snoc rfl rfl⟩

def credits (T : Finset Tid) (entries : List ApiEntry) : Nat :=
  ∑ t ∈ T, credit (eventsOf t entries)

theorem credits_other {T : Finset Tid} (other : z.task ∉ T) :
    credits T (entries ++ [z]) = credits T entries := by
  refine Finset.sum_congr rfl fun t mine => ?_
  rw [eventsOf_other fun same => other (same ▸ mine)]

theorem credits_own {T : Finset Tid} (entries : List ApiEntry) (own : z.task ∈ T) :
    credits T (entries ++ [z]) + credit (eventsOf z.task entries) =
      credits T entries + credit (eventsOf z.task entries ++ [z.event]) := by
  have rest : ∑ t ∈ T.erase z.task, credit (eventsOf t (entries ++ [z])) =
      ∑ t ∈ T.erase z.task, credit (eventsOf t entries) :=
    Finset.sum_congr rfl fun t mine => by rw [eventsOf_other (Finset.ne_of_mem_erase mine).symm]
  rw [credits, credits, ← Finset.add_sum_erase T _ own, ← Finset.add_sum_erase T _ own, rest,
    eventsOf_own]
  omega

theorem commits_of_answer (run : (api partition).History R.Ok migrated (first ++ z :: last) p)
    (yes : Exchange.commits z.event = true) : commits z = true := by
  obtain ⟨-, -, c, answered⟩ := entry_step run
  obtain ⟨t, e, r, s, s'⟩ := z
  dsimp only [Entry.event] at answered yes
  unfold Exchange.commits at yes
  split at yes
  · rename_i same
    cases same
    cases c <;> simp only [exec, failed, reduceCtorEq, Option.some.injEq, Prod.mk.injEq, and_false,
      Option.ite_none_right_eq_some] at answered
    obtain ⟨act, rfl, -⟩ := answered
    simp [commits, act, commitTx]
  · cases yes

theorem answer_of_commits {c : Choice} (kept : ¬ (z.effect = .commitTx ∧ c = .lostReply))
    (answered : exec partition z.task z.before z.effect c = some (z.after, z.answer))
    (yes : commits z = true) : Exchange.commits z.event = true := by
  obtain ⟨t, e, r, s, s'⟩ := z
  unfold commits at yes
  split at yes
  · rename_i effect
    dsimp only at effect yes answered kept
    subst effect
    obtain ⟨act, ended⟩ := Bool.and_eq_true_iff.mp yes
    cases c <;> simp only [exec, failed, act, if_true, Option.some.injEq, Prod.mk.injEq,
      reduceCtorEq] at answered
    · rw [← answered.2]
      rfl
    · rw [← answered.1] at ended
      simp [abort, act] at ended
    · exact absurd ⟨rfl, rfl⟩ kept
  · cases yes

/-- What one answer adds to the published rows, and to the credit of its task. -/
theorem credit_answer (run : (api partition).History R.Ok migrated (entries ++ [z]) p)
    (waits : Awaits j.code (eventsOf z.task entries) z.effect) :
    ∃ published, publishedCount z.after = publishedCount z.before + published ∧
      (credit (eventsOf z.task entries ++ [z.event]) = credit (eventsOf z.task entries) + published ∨
        commits z = true ∧ Exchange.commits z.event = false ∧
          credit (eventsOf z.task entries ++ [z.event]) = credit (eventsOf z.task entries)) := by
  obtain ⟨claims, keeps⟩ := credit_step waits z.answer
  cases commit : commits z with
  | false =>
    refine ⟨0, ?_, .inl ?_⟩
    · rw [publishedCount, commits_same run commit]
      rfl
    · refine keeps ?_
      by_contra yes
      have answered := commits_of_answer run (by simpa using yes)
      rw [commit] at answered
      cases answered
  | true =>
    refine ⟨publishes (eventsOf z.task entries), commit_count run commit, ?_⟩
    cases answer : Exchange.commits z.event with
    | true =>
      obtain ⟨zero, all⟩ := claims answer
      exact .inl (by rw [zero, Nat.zero_add]; exact all)
    | false => exact .inr ⟨rfl, rfl, keeps answer⟩

/-- No set of tasks has been credited with more rows than are published. -/
theorem credited (run : (api partition).History R.Ok migrated entries p) (T : Finset Tid) :
    credits T entries ≤ publishedCount p.shared := by
  induction run with
  | refl =>
    have none : credits T [] = 0 := Finset.sum_eq_zero fun t _ => rfl
    omega
  | @step entries q q' a before ok st ih =>
    have run := before.step ok st
    have unfolds := step_unfolds st
    generalize (api partition).logged q a = new at run unfolds
    cases unfolds with
    | answer z was is live =>
      have tracks := before.tracks z.task
      rw [live] at tracks
      obtain ⟨published, count, credit⟩ := credit_answer run tracks.awaits
      rw [← is, count, was]
      by_cases own : z.task ∈ T
      · have sum := credits_own entries own
        rcases credit with more | ⟨-, -, same⟩ <;> omega
      · rw [credits_other own]
        omega
    | quiet same =>
      rw [List.append_nil, same]
      exact ih
    | env x happened =>
      rw [List.append_nil, publishedCount, (ext_tables happened).2]
      exact ih

/-- No process dies, and no COMMIT takes effect behind the back of its call. -/
def lossless (allowed : Job → Prop) : Regime where
  allowed := allowed
  answers _ _ e c := ¬ (e = .commitTx ∧ c = .lostReply)
  crashes := False

/-- Then all published rows have been credited to some task. -/
theorem credited_all {allowed : Job → Prop}
    (run : (api partition).History (lossless allowed).Ok migrated entries p) (T : Finset Tid)
    (all : ∀ t, t ∉ T → eventsOf t entries = []) :
    credits T entries = publishedCount p.shared := by
  induction run with
  | refl => exact Finset.sum_eq_zero fun t _ => rfl
  | @step entries q q' a before ok st ih =>
    have run := before.step ok st
    have unfolds := step_unfolds st
    generalize (api partition).logged q a = new at run unfolds all
    cases unfolds with
    | answer z was is live =>
      have tracks := before.tracks z.task
      rw [live] at tracks
      have earlier : ∀ t, t ∉ T → eventsOf t entries = [] := by
        intro t other
        have none := all t other
        rw [eventsOf_append] at none
        exact (List.append_eq_nil_iff.mp none).1
      have own : z.task ∈ T := by
        by_contra other
        have none := all z.task other
        rw [eventsOf_own] at none
        exact List.append_ne_nil_of_right_ne_nil _ (List.cons_ne_nil _ _) none
      have sum := credits_own entries own
      obtain ⟨published, count, credit⟩ := credit_answer run tracks.awaits
      rw [← is, count, was, ← ih earlier]
      rcases credit with more | ⟨yes, no, -⟩
      · omega
      · obtain ⟨r, j', k', c, -, -, live, kept, answered⟩ := run.answer
        have told := answer_of_commits (kept j' z.effect k' live) answered yes
        rw [no] at told
        cases told
    | quiet same =>
      rw [List.append_nil] at all ⊢
      rw [same]
      exact ih all
    | env x happened =>
      rw [List.append_nil] at all ⊢
      rw [publishedCount, (ext_tables happened).2]
      exact ih all

/-! What a drain answers. -/

def answered : Slot Job Effect Effect.Answer Err Response → Nat
  | .ended _ (.ok (.drained n)) => n
  | _ => 0

theorem gauge_returns {n m : Nat}
    (run : Runs (do refreshPendingGauge; pure n : Service Nat) events (.ok m)) : m = n := by
  obtain ⟨_, _, _, -, ended, -⟩ := runs_through run
  exact Except.ok.inj (runs_done ended).2

theorem runs_batch_publishes {config : OutboxConfig} {n : Nat}
    (run : Runs (drainBatch config) events (.ok n)) : n = publishes events := by
  obtain ⟨rows, rest, rfl, later⟩ := runs_next run
  cases rows with
  | nil =>
    obtain ⟨k, rfl⟩ := runs_gauge later
    exact gauge_returns later
  | cons row rows =>
    obtain ⟨a, first, last, tried, after, rfl⟩ := runs_through later
    obtain ⟨_, same, sends⟩ := runs_outcome tried
    cases same
    have sent : first = [⟨.sendBatch (byTopic ((row :: rows).map relayMessage)), a⟩] :=
      runs_await sends
    rw [sent]
    cases a with
    | error x =>
      have marks : Runs (do markFailed config.maxAttempts x (row :: rows); pure 0 : Service Nat)
        last (.ok n) := after
      obtain ⟨u, marks, _, -, ended, rfl⟩ := runs_through marks
      obtain ⟨rfl, same⟩ := runs_done ended
      cases Except.ok.inj same
      rfl
    | ok u =>
      have marks : Runs (do
          ask (.updateOutbox ((row :: rows).map (·.id)) publishedPatch)
          refreshPendingGauge
          pure (row :: rows).length : Service Nat) last (.ok n) := after
      obtain ⟨-, rest, rfl, gauge⟩ := runs_next marks
      obtain ⟨k, rfl⟩ := runs_gauge gauge
      rw [gauge_returns gauge]
      simp [publishes, refused, Exchange.refuses, chosen, Exchange.picks]

theorem drainBatch_aside {config : OutboxConfig} : (drainBatch config).Only Effect.aside :=
  only_mono (fun e drains => by cases e <;> trivial) drainBatch_drains

/-- A drain answers what it has been credited with, unless it cannot leave. -/
theorem runs_drain {config : OutboxConfig} {replica : Replica} {o : Except Err Nat}
    (run : Runs (drainOnce config replica) events o) :
    o = .ok (credit events) ∨ (∃ x, o = .error x) ∧
      (credit events = 0 ∨ ∃ x, ⟨.leaveDrain replica, .error x⟩ ∈ events) := by
  obtain ⟨r, rest, rfl, later⟩ := runs_first run
  have entered : ∀ rest : List Exchange,
      credit (⟨.enterDrain replica, r⟩ :: rest) = credit rest := fun rest => rfl
  rw [entered]
  cases r with
  | error x =>
    obtain ⟨rfl, rfl⟩ := runs_fail later
    exact .inr ⟨⟨x, rfl⟩, .inl rfl⟩
  | ok running =>
    cases running with
    | true =>
      obtain ⟨rfl, rfl⟩ := runs_done later
      exact .inl rfl
    | false =>
      obtain ⟨first, r, rest, last, inner, leave, rfl, rfl⟩ := runs_ensure later
      obtain rfl := runs_await leave
      have left : credit (first ++ [⟨.leaveDrain replica, last⟩]) = credit first :=
        credit_snoc rfl rfl rfl
      rw [left]
      cases last with
      | error x =>
        refine .inr ⟨⟨x, rfl⟩, .inr ⟨x, ?_⟩⟩
        simp
      | ok u =>
        rcases runs_transaction drainBatch_aside inner with
          ⟨n, u, v, inside, rfl, rfl, batch⟩ | ⟨⟨x, rfl⟩, aside⟩
        · refine .inl (congrArg Except.ok ?_)
          have any : (⟨.beginTx, .ok u⟩ :: inside ++ [(⟨.commitTx, .ok v⟩ : Exchange)]).any
              Exchange.commits = true := by
            rw [List.any_append]
            exact Bool.or_true _
          rw [credit, any, if_pos rfl, publishes_snoc rfl rfl, runs_batch_publishes batch]
          rfl
        · exact .inr ⟨⟨x, rfl⟩, .inl (credit_none fun y hy => (aside y hy).commits)⟩

theorem answered_other {o : Except Err Response} (other : ∀ config replica, j ≠ .drainOnce config replica)
    (run : Runs j.code events o) : answered (.ended j o) = 0 := by
  cases o with
  | error x => rfl
  | ok response =>
    cases response with
    | drained n =>
      cases j with
      | drainOnce config replica => exact absurd rfl (other config replica)
      | _ =>
        obtain ⟨_, _, _, -, ended, -⟩ := runs_through run
        cases (runs_done ended).2
    | _ => rfl

theorem never_stays (run : (api partition).History R.Ok migrated entries p) {replica : Replica}
    {x : Err} : ⟨.leaveDrain replica, .error x⟩ ∉ eventsOf t entries := by
  intro there
  obtain ⟨z, hz, event⟩ := List.mem_map.mp there
  obtain ⟨first, last, rfl⟩ := List.append_of_mem (List.mem_filter.mp hz).1
  obtain ⟨-, -, c, answered⟩ := entry_step run
  obtain ⟨t', e, r, s, s'⟩ := z
  cases event
  cases c <;> simp [exec] at answered

/-- What a call has answered is what it has been credited with. -/
theorem ended_answered (run : (api partition).History R.Ok migrated entries p)
    {o : Except Err Response} (ended : p.slot t = .ended j o) :
    answered (p.slot t) = credit (eventsOf t entries) := by
  have runs := run.runs ended
  rw [ended]
  by_cases other : ∀ config replica, j ≠ .drainOnce config replica
  · rw [answered_other other runs]
    have none : chosen (eventsOf t entries) = [] :=
      chosen_nil fun y hy => runs_only runs (others_only other) y hy
    rw [credit, publishes_nil none, ite_self]
  · simp only [not_forall, not_not] at other
    obtain ⟨config, replica, rfl⟩ := other
    have leaves : ∀ x, ⟨.leaveDrain replica, .error x⟩ ∉ eventsOf t entries := fun _ =>
      never_stays run
    generalize eventsOf t entries = events at runs leaves ⊢
    obtain ⟨first, r, drain, after⟩ := runs_bind runs
    cases after with
    | @threw x same =>
      subst same
      rcases runs_drain drain with no | ⟨-, zero | ⟨x, stays⟩⟩
      · cases no
      · exact zero.symm
      · exact absurd stays (leaves x)
    | @went n rest later =>
      obtain ⟨rfl, rfl⟩ := runs_done later
      rcases runs_drain drain with same | ⟨⟨x, no⟩, -⟩
      · rw [List.append_nil]
        exact Except.ok.inj same
      · cases no

theorem answered_credit (run : (api partition).History R.Ok migrated entries p) (t : Tid) :
    answered (p.slot t) ≤ credit (eventsOf t entries) := by
  cases slot : p.slot t with
  | ended j o =>
    rw [← slot]
    exact Nat.le_of_eq (ended_answered run slot)
  | _ => exact Nat.zero_le _

/-! The stats. -/

structure StatusGroup where
  status : OutboxStatus
  count : Nat
  oldest : Option Time

def groupOf (rows : List OutboxRow) (status : OutboxStatus) : StatusGroup :=
  let own := rows.filter fun r => r.status == status
  ⟨status, own.length, (own.map (·.createdAt)).min?⟩

/-- GROUP BY answers one row for each status that there is, in an order of its own. -/
def Groups (rows : List OutboxRow) (groups : List StatusGroup) : Prop :=
  groups.Perm ((rows.map (·.status)).dedup.map (groupOf rows))

structure OutboxStats where
  pending : Nat
  published : Nat
  failed : Nat
  oldestPendingAt : Option Time

/- A `Map` keeps the last of the entries with one key. -/
def byStatus (groups : List StatusGroup) (status : OutboxStatus) : Option StatusGroup :=
  groups.reverse.find? fun group => group.status == status

def outboxStats (groups : List StatusGroup) : OutboxStats where
  pending := ((byStatus groups .pending).map (·.count)).getD 0
  published := ((byStatus groups .published).map (·.count)).getD 0
  failed := ((byStatus groups .failed).map (·.count)).getD 0
  oldestPendingAt := (byStatus groups .pending).bind (·.oldest)

theorem byStatus_groups {rows : List OutboxRow} {groups : List StatusGroup}
    (answer : Groups rows groups) (status : OutboxStatus) :
    byStatus groups status =
      if status ∈ rows.map (·.status) then some (groupOf rows status) else none := by
  have mem : ∀ group, group ∈ groups ↔
      ∃ status ∈ rows.map (·.status), groupOf rows status = group := by
    intro group
    rw [answer.mem_iff, List.mem_map]
    simp only [List.mem_dedup]
  unfold byStatus
  split
  · rename_i there
    have found : ∃ group ∈ groups.reverse, (group.status == status) = true :=
      ⟨groupOf rows status, List.mem_reverse.mpr ((mem _).mpr ⟨status, there, rfl⟩), beq_self_eq_true _⟩
    obtain ⟨group, hg⟩ := Option.isSome_iff_exists.mp (List.find?_isSome.mpr found)
    have same := List.find?_some hg
    obtain ⟨status', -, rfl⟩ := (mem group).mp (List.mem_reverse.mp (List.mem_of_find?_eq_some hg))
    cases beq_iff_eq.mp same
    exact hg
  · rename_i missing
    refine List.find?_eq_none.mpr fun group hg same => missing ?_
    obtain ⟨status', there, rfl⟩ := (mem group).mp (List.mem_reverse.mp hg)
    cases beq_iff_eq.mp same
    exact there

theorem count_groups {rows : List OutboxRow} {groups : List StatusGroup}
    (answer : Groups rows groups) (status : OutboxStatus) :
    ((byStatus groups status).map (·.count)).getD 0 =
      rows.countP fun r => r.status == status := by
  rw [byStatus_groups answer, List.countP_eq_length_filter]
  split
  · rfl
  · rename_i missing
    refine (List.length_eq_zero_iff.mpr (List.filter_eq_nil_iff.mpr fun r hr same => ?_)).symm
    exact missing (List.mem_map.mpr ⟨r, hr, beq_iff_eq.mp same⟩)

theorem count_statuses (rows : List OutboxRow) :
    (rows.countP fun r => r.status == .pending) + (rows.countP fun r => r.status == .published) +
      (rows.countP fun r => r.status == .failed) = rows.length := by
  induction rows with
  | nil => rfl
  | cons r rows ih =>
    simp only [List.countP_cons, List.length_cons]
    cases r.status <;> simp <;> omega

/-- What the stats say of the state they are read in: every booking has its row, what is published
the broker has accepted, no drain has answered for rows of another, and the oldest pending row is
the one that is named. -/
structure Stated (p : ApiPool) (stats : OutboxStats) : Prop where
  total : stats.pending + stats.published + stats.failed = p.shared.bookings.length
  accepted : stats.published ≤ (p.shared.kafka.map (·.headers.messageId)).dedup.length
  drained : ∀ T : Finset Tid, ∑ t ∈ T, answered (p.slot t) ≤ stats.published
  waiting : stats.oldestPendingAt = none ↔ stats.pending = 0
  oldest : ∀ since, stats.oldestPendingAt = some since →
    (∃ r ∈ p.shared.outbox.committed, r.status = .pending ∧ r.createdAt = since) ∧
      ∀ r ∈ p.shared.outbox.committed, r.status = .pending → since ≤ r.createdAt

theorem published_accepted (run : (api partition).Reach R.Ok migrated p) :
    publishedCount p.shared ≤ (p.shared.kafka.map (·.headers.messageId)).dedup.length := by
  have ids : (p.shared.outbox.committed.map (·.id)).Nodup := (api_sound run).inv.wf.outbox.nodup
  let published := p.shared.outbox.committed.filter fun r => r.status == .published
  let sent := published.map fun r => some r.id
  have nodup : sent.Nodup := by
    have own : (published.map (·.id)).Nodup := (List.filter_sublist.map _).nodup ids
    have somes := own.map (Option.some_injective Uuid)
    rwa [List.map_map] at somes
  have known : sent ⊆ (p.shared.kafka.map (·.headers.messageId)).dedup := by
    intro id hid
    obtain ⟨r, hr, rfl⟩ := List.mem_map.mp hid
    obtain ⟨there, published⟩ := List.mem_filter.mp hr
    obtain ⟨c, hc, rfl⟩ := List.mem_map.mp there
    rw [List.mem_dedup]
    exact List.mem_map.mpr ⟨_, (backed run).committed hc (beq_iff_eq.mp published), rfl⟩
  have le := (List.subperm_of_subset nodup known).length_le
  rw [List.length_map] at le
  rw [publishedCount, List.countP_eq_length_filter]
  exact le

theorem oldest_groups {rows : List OutboxRow} {groups : List StatusGroup}
    (answer : Groups rows groups) : (outboxStats groups).oldestPendingAt =
      ((rows.filter fun r => r.status == .pending).map (·.createdAt)).min? := by
  have group := byStatus_groups answer .pending
  rw [outboxStats, group]
  split
  · rfl
  · rename_i missing
    have none : (rows.filter fun r => r.status == .pending) = [] := by
      refine List.filter_eq_nil_iff.mpr fun r hr same => missing ?_
      exact List.mem_map.mpr ⟨r, hr, beq_iff_eq.mp same⟩
    rw [none]
    rfl

/-- The stats of the outbox are right in every state, whatever has failed. -/
theorem stats_reported (partition : String → String → Nat) (R : Regime)
    (mode : ∀ j, R.allowed j → j.OutboxOnly) (p : ApiPool)
    (run : (api partition).Reach R.Ok migrated p) (groups : List StatusGroup)
    (answer : Groups p.shared.outbox.committed groups) : Stated p (outboxStats groups) := by
  obtain ⟨entries, history⟩ := Machine.History.of_reach run
  have pending := count_groups answer .pending
  have published : (outboxStats groups).published = publishedCount p.shared :=
    count_groups answer .published
  have failed := count_groups answer .failed
  have oldest := oldest_groups answer
  constructor
  · have pairs := (paired mode run).length_eq
    rw [List.length_map] at pairs
    rw [pairs, ← count_statuses]
    exact congrArg₂ (· + ·) (congrArg₂ (· + ·) pending published) failed
  · rw [published]
    exact published_accepted run
  · intro T
    rw [published]
    exact (Finset.sum_le_sum fun t _ => answered_credit history t).trans (credited history T)
  · rw [oldest, List.min?_eq_none_iff, List.map_eq_nil_iff]
    rw [show (outboxStats groups).pending = _ from pending, List.countP_eq_length_filter,
      List.length_eq_zero_iff]
  · intro since found
    rw [oldest, List.min?_eq_some_iff] at found
    obtain ⟨there, least⟩ := found
    obtain ⟨r, hr, rfl⟩ := List.mem_map.mp there
    obtain ⟨mem, status⟩ := List.mem_filter.mp hr
    refine ⟨⟨r, mem, beq_iff_eq.mp status, rfl⟩, fun r' hr' status' => least _ ?_⟩
    exact List.mem_map.mpr ⟨r', List.mem_filter.mpr ⟨hr', beq_iff_eq.mpr status'⟩, rfl⟩

theorem groups_alike {rows : List OutboxRow} {n : Nat} {status : OutboxStatus}
    (all : rows.map (·.status) = List.replicate (n + 1) status) :
    Groups rows [groupOf rows status] := by
  unfold Groups
  rw [all, List.replicate_dedup (Nat.succ_ne_zero n)]
  exact List.Perm.refl _

/- Two drains at once have published the two rows, and the stats are 0, 2 and 0. -/
theorem stats_reported_two : ∃ (p : ApiPool) (groups : List StatusGroup),
    p.shared.outbox.committed.map (·.status) = [.published, .published] ∧
      Groups p.shared.outbox.committed groups ∧ Stated p (outboxStats groups) := by
  have replay : (((api fun _ _ => 0).run migrated overlappingDrains).map fun p =>
      p.shared.outbox.committed.map (·.status)) = some [.published, .published] := by decide +kernel
  obtain ⟨p, hp, published⟩ := Option.map_eq_some_iff.mp replay
  have run : (api fun _ _ => 0).Reach outboxOnly.Ok migrated p := by
    refine any_run hp fun t j start => ?_
    simp only [overlappingDrains, overlappingBookings, List.mem_append, List.mem_cons,
      List.not_mem_nil, or_false, reduceCtorEq, false_or, Act.start.injEq] at start
    rcases start with (⟨-, rfl⟩ | ⟨-, rfl⟩ | ⟨-, rfl⟩) | ⟨-, rfl⟩ | ⟨-, rfl⟩
    · trivial
    · exact ⟨rfl, rfl⟩
    · exact ⟨rfl, rfl⟩
    · trivial
    · trivial
  have groups : Groups p.shared.outbox.committed [groupOf p.shared.outbox.committed .published] :=
    groups_alike (n := 1) published
  exact ⟨p, _, published, groups,
    stats_reported (fun _ _ => 0) outboxOnly (fun _ h => h) p run _ groups⟩

/-- Where nothing is lost, the drains have answered for every published row, and each for its own:
their answers add up. -/
theorem drains_add_up (partition : String → String → Nat) (allowed : Job → Prop) (p : ApiPool)
    (run : (api partition).Reach (lossless allowed).Ok migrated p)
    (through : ∀ t config replica e k, p.slot t ≠ .live (.drainOnce config replica) e k)
    (T : Finset Tid) (started : ∀ t, t ∉ T → p.slot t = .idle) (groups : List StatusGroup)
    (answer : Groups p.shared.outbox.committed groups) :
    ∑ t ∈ T, answered (p.slot t) = (outboxStats groups).published := by
  obtain ⟨entries, history⟩ := Machine.History.of_reach run
  have idle : ∀ t, p.slot t = .idle → eventsOf t entries = [] := by
    intro t slot
    have tracks := history.tracks t
    rwa [slot] at tracks
  have each : ∀ t, answered (p.slot t) = credit (eventsOf t entries) := by
    intro t
    cases slot : p.slot t with
    | idle =>
      rw [idle t slot]
      rfl
    | live j e k =>
      have tracks := history.tracks t
      rw [slot] at tracks
      have other : ∀ config replica, j ≠ .drainOnce config replica := by
        rintro config replica rfl
        exact through t config replica e k slot
      have none := chosen_nil ((others_only other).awaited tracks.awaits)
      rw [credit, publishes_nil none, ite_self]
      rfl
    | ended j o =>
      rw [← slot]
      exact ended_answered history slot
    | gone j => exact absurd slot (run.not_gone (fun _ _ => id) t j)
  have published : (outboxStats groups).published = publishedCount p.shared :=
    count_groups answer .published
  rw [published, Finset.sum_congr rfl fun t _ => each t]
  exact credited_all history T fun t other => idle t (started t other)

/- Each of two drains at once answers for its row. -/
theorem drains_add_up_two : ∃ (p : ApiPool) (groups : List StatusGroup),
    p.shared.outbox.committed.map (·.status) = [.published, .published] ∧
      Groups p.shared.outbox.committed groups ∧
      ∑ t ∈ ({0, 1, 2, 3, 4} : Finset Tid), answered (p.slot t) = (outboxStats groups).published := by
  have replay : (((api fun _ _ => 0).run migrated overlappingDrains).map fun p =>
      (p.shared.outbox.committed.map (·.status), [0, 1, 2, 3, 4].all fun t => !(p.slot t).isLive)) =
        some ([.published, .published], true) := by decide +kernel
  obtain ⟨p, hp, seen⟩ := Option.map_eq_some_iff.mp replay
  obtain ⟨published, ended⟩ := Prod.mk.inj seen
  have quiet : ∀ t, (p.slot t).isLive = false := by
    refine Machine.run_no_live hp [0, 1, 2, 3, 4] (by decide) fun t ht => ?_
    simpa using List.all_eq_true.mp ended t ht
  have run : (api fun _ _ => 0).Reach (lossless fun _ => True).Ok migrated p := by
    refine .of_run hp fun a ha r => ?_
    cases a with
    | start t j => trivial
    | step t c =>
      rintro j e k live ⟨-, rfl⟩
      simp [overlappingDrains, overlappingBookings] at ha
    | kill t => simp [overlappingDrains, overlappingBookings] at ha
    | env x => simp [overlappingDrains, overlappingBookings] at ha
  have started : ∀ t, t ∉ ({0, 1, 2, 3, 4} : Finset Tid) → p.slot t = .idle := by
    intro t other
    have named : (overlappingDrains.all fun a => a.task.all [0, 1, 2, 3, 4].contains) = true := by decide
    have others : ∀ a ∈ overlappingDrains, a.task ≠ some t := by
      intro a ha same
      have known := List.all_eq_true.mp named a ha
      rw [same] at known
      exact other (by simpa using known)
    rw [Machine.runChecked_slot hp others]
    rfl
  have through : ∀ t config replica e k, p.slot t ≠ .live (.drainOnce config replica) e k := by
    intro t config replica e k live
    have no := quiet t
    rw [live] at no
    cases no
  have groups : Groups p.shared.outbox.committed [groupOf p.shared.outbox.committed .published] :=
    groups_alike (n := 1) published
  exact ⟨p, _, published, groups, drains_add_up (fun _ _ => 0) (fun _ => True) p run
    through {0, 1, 2, 3, 4} started _ groups⟩

end Overbook
