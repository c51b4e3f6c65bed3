import Overbook.Discipline.History

/-! What a transaction has done to the outbox rows that it holds, read off the answers that its task
was given. -/
namespace Overbook

open Async Prog ReadCommitted Kafka Store

def Exchange.picks : Exchange → List OutboxRow
  | ⟨.selectPending _, .ok rows⟩ => rows
  | _ => []

def chosen (events : List Exchange) : List OutboxRow := events.flatMap Exchange.picks

def Exchange.marks (now : Time) (row : OutboxRow) : Exchange → OutboxRow
  | ⟨.updateOutbox ids patch, .ok _⟩ => if ids.contains row.id then patch.apply now row else row
  | _ => row

def marked (now : Time) (events : List Exchange) (row : OutboxRow) : OutboxRow :=
  events.foldl (Exchange.marks now) row

/-- The rows that `t` holds are those that its query has returned, as its updates have left them. -/
structure Working (t : Tid) (events : List Exchange) (s : Store) : Prop where
  held : ∀ c ∈ s.outbox.held t,
    c.committed ∈ chosen events ∧ c.view t = marked (s.tx t).startedAt events c.committed
  picked : ∀ r ∈ chosen events, ∃ c ∈ s.outbox.held t, c.committed = r
  once : (chosen events).Nodup

variable {partition : String → String → Nat} {R : Regime} {t : Tid} {s s' : Store} {p : ApiPool}
  {entries : List ApiEntry} {events : List Exchange}

theorem chosen_append (events events' : List Exchange) :
    chosen (events ++ events') = chosen events ++ chosen events' := List.flatMap_append

theorem marked_snoc (now : Time) (events : List Exchange) (y : Exchange) (row : OutboxRow) :
    marked now (events ++ [y]) row = Exchange.marks now (marked now events row) y := by
  simp [marked, List.foldl_append]

@[simp] theorem marks_id (now : Time) (row : OutboxRow) (y : Exchange) :
    (Exchange.marks now row y).id = row.id := by
  unfold Exchange.marks
  split
  · split <;> rfl
  · rfl

@[simp] theorem marked_id (now : Time) (events : List Exchange) (row : OutboxRow) :
    (marked now events row).id = row.id := by
  induction events generalizing row with
  | nil => rfl
  | cons y events ih => exact (ih _).trans (marks_id now row y)

def Exchange.aside : Exchange → Bool
  | ⟨.beginTx, .ok _⟩ => false
  | ⟨.selectPending _, .ok _⟩ => false
  | ⟨.updateOutbox .., .ok _⟩ => false
  | _ => true

theorem exec_error {e : Effect} {c : Choice} {x : Err}
    (h : exec partition t s e c = some (s', .error x)) (act : s'.active t = true) :
    s'.outbox = s.outbox ∧ s'.tx = s.tx := by
  have gone : s' ≠ s.abort t := by
    rintro rfl
    rw [abort_inactive] at act
    cases act
  have through : s' ≠ s.commitTx t := by
    rintro rfl
    simp [commitTx, active] at act
  cases e <;> cases c <;> first
    | (cases h; done)
    | exact absurd (Prod.mk.inj (Option.some.inj h)).1.symm gone
    | (cases h; exact ⟨rfl, rfl⟩)
    | skip
  all_goals
    simp only [exec] at h
    repeat' split at h
    all_goals first
      | (cases h; done)
      | exact absurd (Prod.mk.inj (Option.some.inj h)).1.symm through

/-- Any other statement that leaves its transaction open leaves the rows alone that it holds. -/
theorem exec_aside {e : Effect} {c : Choice} {r : Except Err e.Answer}
    (aside : Exchange.aside ⟨e, r⟩ = true) (h : exec partition t s e c = some (s', r))
    (act : s'.active t = true) : s.active t = true ∧ s'.outbox.held t = s.outbox.held t ∧
      (s'.tx t).startedAt = (s.tx t).startedAt := by
  cases r with
  | error x =>
    obtain ⟨outbox, tx⟩ := exec_error h act
    rw [outbox, tx, ← active_congr (congrFun tx t)]
    exact ⟨act, rfl, rfl⟩
  | ok a =>
    cases exec_touch h with
    | rest _ _ _ outbox tx =>
      rw [outbox, tx, ← active_congr (congrFun tx t)]
      exact ⟨act, rfl, rfl⟩
    | begun => cases aside
    | committed => simp [commitTx, active] at act
    | aborted => rw [abort_inactive] at act; cases act
    | rolledBack => simp [rollbackTx, active] at act
    | booking _ _ open_ => exact ⟨open_, rfl, by rw [setTx_self]⟩
    | message _ _ open_ => exact ⟨open_, rfl, by rw [setTx_self]⟩
    | selected => cases aside
    | updated => cases aside
    | _ => exact ⟨act, rfl, rfl⟩

theorem picks_aside {y : Exchange} (h : Exchange.aside y = true) : Exchange.picks y = [] := by
  unfold Exchange.picks
  split
  · cases h
  · rfl

theorem marks_aside {y : Exchange} (h : Exchange.aside y = true) (now : Time) (row : OutboxRow) :
    Exchange.marks now row y = row := by
  unfold Exchange.marks
  split
  · cases h
  · rfl

theorem Working.aside {y : Exchange} (h : Working t events s) (aside : Exchange.aside y = true)
    (held : s'.outbox.held t = s.outbox.held t)
    (began : (s'.tx t).startedAt = (s.tx t).startedAt) : Working t (events ++ [y]) s' := by
  have same : chosen (events ++ [y]) = chosen events := by
    rw [chosen_append]
    simp [chosen, picks_aside aside]
  constructor
  · intro c hc
    rw [held] at hc
    rw [same, began, marked_snoc, marks_aside aside]
    exact h.held c hc
  · rw [same, held]
    exact h.picked
  · rw [same]
    exact h.once

theorem Working.frame (h : Working t events s) (f : Frame t s s') (act : s'.active t = true) :
    Working t events s' := by
  constructor
  · rw [f.outbox act, f.tx act]
    exact h.held
  · rw [f.outbox act]
    exact h.picked
  · exact h.once

/-- The query adds what it returns, and finds the rows as they are committed. -/
theorem Working.select {limit : Int} {rows : List OutboxRow} (h : Working t events s)
    (none : chosen events = []) (unmarked : ∀ now row, marked now events row = row)
    (sel : Selects limit ((s.outbox.filter (s.eligible t)).map (·.committed)) rows) :
    Working t (events ++ [⟨.selectPending limit, .ok rows⟩])
      ((s.putOutbox (s.outbox.write t (s.picks t rows) id)).setTx t
        { s.tx t with selected := rows.map (·.id) }) := by
  have same : chosen (events ++ [⟨.selectPending limit, .ok rows⟩]) = rows := by
    rw [chosen_append, none]
    simp [chosen, Exchange.picks]
  have unheld : ∀ c ∈ s.outbox, c.heldBy t = false := by
    intro c hc
    by_contra held
    have mine := (h.held c (Rows.mem_held.mpr ⟨hc, by simpa using held⟩)).1
    rw [none] at mine
    cases mine
  constructor
  · intro c hc
    obtain ⟨hc, held⟩ := Rows.mem_held.mp hc
    obtain ⟨d, hd, rfl⟩ := List.mem_map.mp hc
    have free := unheld d hd
    split at held
    · rename_i picked
      simp only [picked, if_true]
      refine ⟨?_, ?_⟩
      · rw [same]
        simp only [picks, Bool.and_eq_true, List.contains_iff_mem] at picked
        exact picked.1
      · rw [marked_snoc, unmarked]
        exact (Cell.write_view ..).trans (Cell.view_of_not_heldBy free)
    · rw [free] at held
      cases held
  · intro r hr
    rw [same] at hr
    obtain ⟨c, hc, rfl, eligible⟩ := selects_eligible sel r hr
    have picked : s.picks t rows c = true := by simp [picks, eligible, hr]
    refine ⟨c.write t (c.view t), Rows.mem_held.mpr ⟨?_, by simp⟩, rfl⟩
    exact List.mem_map.mpr ⟨c, hc, by simp [picked]⟩
  · rw [same]
    exact sel.1

theorem cell_of_id (wf : WF s) {c d : Cell OutboxRow} (hc : c ∈ s.outbox) (hd : d ∈ s.outbox)
    (id : c.committed.id = d.committed.id) : c = d := by
  have nodup : (s.outbox.map (·.committed.id)).Nodup := by
    have ids := wf.outbox.nodup
    rwa [Rows.committed, List.map_map] at ids
  exact List.inj_on_of_nodup_map nodup hc hd id

/-- An update of rows that the query has returned marks them. -/
theorem Working.update {ids : List Uuid} {patch : OutboxPatch} (wf : WF s) (act : s.active t = true)
    (h : Working t events s) (sub : ∀ x ∈ ids, x ∈ (chosen events).map (·.id)) :
    Working t (events ++ [⟨.updateOutbox ids patch, .ok ()⟩])
      (s.putOutbox (s.outbox.write t (among ids) (patch.apply (s.now t)))) := by
  have same : chosen (events ++ [⟨.updateOutbox ids patch, .ok ()⟩]) = chosen events := by
    rw [chosen_append]
    simp [chosen, Exchange.picks]
  have now : s.now t = (s.tx t).startedAt := if_pos act
  have mine : ∀ c ∈ s.outbox, among ids c = true → c.heldBy t = true := by
    intro c hc here
    obtain ⟨r, hr, id⟩ := List.mem_map.mp (sub c.committed.id (by simpa [among] using here))
    obtain ⟨d, hd, rfl⟩ := h.picked r hr
    obtain ⟨hd, held⟩ := Rows.mem_held.mp hd
    exact cell_of_id wf hd hc id ▸ held
  have kept : ∀ c ∈ s.outbox, c.heldBy t = true →
      (if among ids c then c.write t (patch.apply (s.now t) (c.view t)) else c) ∈
        (s.outbox.write t (among ids) (patch.apply (s.now t))).held t := by
    intro c hc held
    refine Rows.mem_held.mpr ⟨List.mem_map_of_mem hc, ?_⟩
    split
    · simp
    · exact held
  constructor
  · intro c hc
    obtain ⟨hc, held⟩ := Rows.mem_held.mp hc
    obtain ⟨d, hd, rfl⟩ := List.mem_map.mp hc
    rw [same, marked_snoc]
    split at held
    · rename_i here
      obtain ⟨known, view⟩ := h.held d (Rows.mem_held.mpr ⟨hd, mine d hd here⟩)
      simp only [here, if_true, Cell.write_committed, Cell.write_view]
      refine ⟨known, ?_⟩
      rw [view, now]
      have contains : ids.contains d.committed.id = true := here
      simp only [Exchange.marks, marked_id, contains, if_true]
      rfl
    · rename_i away
      obtain ⟨known, view⟩ := h.held d (Rows.mem_held.mpr ⟨hd, held⟩)
      simp only [away, Bool.false_eq_true, if_false]
      refine ⟨known, view.trans ?_⟩
      have contains : ¬ ids.contains d.committed.id = true := away
      simp only [Exchange.marks, marked_id, contains, Bool.false_eq_true, if_false]
      rfl
  · intro r hr
    rw [same] at hr
    obtain ⟨c, hc, rfl⟩ := h.picked r hr
    obtain ⟨hc, held⟩ := Rows.mem_held.mp hc
    refine ⟨_, kept c hc held, ?_⟩
    split <;> rfl
  · rw [same]
    exact h.once

theorem awaits_transaction {α : Type} {run : Service α} {e : Effect}
    (waits : Awaits (transaction run) events e) :
    (events = [] ∧ e = .beginTx) ∨
      (∃ rest, events = ⟨.beginTx, .ok ()⟩ :: rest ∧
        (Awaits run rest e ∨ ∃ a, Runs run rest (.ok a) ∧ e = .commitTx)) ∨ e = .rollbackTx := by
  rcases awaits_handle waits with body | ⟨x, first, rest, -, undo, rfl⟩
  · rcases awaits_first body with begins | ⟨r, rest, rfl, inside⟩
    · exact .inl begins
    · cases r with
      | error x => cases inside
      | ok u =>
        refine .inr (.inl ⟨rest, rfl, ?_⟩)
        have body : Awaits (run >>= fun result => do ask .commitTx; pure result) rest e := inside
        rcases awaits_bind body with running | ⟨a, first, rest, ran, commit, rfl⟩
        · exact .inl running
        · rcases awaits_first commit with ⟨rfl, rfl⟩ | ⟨r, rest, rfl, past⟩
          · exact .inr ⟨a, by simpa using ran, rfl⟩
          · cases r <;> cases past
  · have only : Only (· = Effect.rollbackTx)
        (do tryCatch (ask .rollbackTx) fun _ => pure (); throw x : Service α) :=
      only_bind (only_handle ((only_await _).mpr rfl) fun _ => trivial) fun _ => trivial
    exact .inr (.inr (only.awaits undo))

theorem awaits_drain {config : OutboxConfig} {replica : Replica} {e : Effect}
    (waits : Awaits (Job.drainOnce config replica).code events e) :
    (events = [] ∧ e = .enterDrain replica) ∨
      (∃ rest, events = ⟨.enterDrain replica, .ok false⟩ :: rest ∧
        Awaits (transaction (drainBatch config)) rest e) ∨ e = .leaveDrain replica := by
  rcases awaits_bind waits with drain | ⟨_, _, _, _, ended, _⟩
  · rcases awaits_first drain with enters | ⟨r, rest, rfl, inside⟩
    · exact .inl enters
    · cases r with
      | error x => cases inside
      | ok running =>
        cases running with
        | true => cases inside
        | false =>
          have body : Awaits (ensure (transaction (drainBatch config)) (ask (.leaveDrain replica)))
            rest e := inside
          rcases awaits_bind body with working | ⟨result, _, rest, _, leaves, -⟩
          · exact .inr (.inl ⟨rest, rfl, awaits_outcome working⟩)
          · have only : Only (· = Effect.leaveDrain replica)
                (do ask (.leaveDrain replica); Prog.ofExcept result : Service Nat) :=
              only_bind ((only_await _).mpr rfl) fun _ => only_ofExcept _
            exact .inr (.inr (only.awaits leaves))
  · cases ended

def Effect.follows : Effect → Prop
  | .sendBatch _ => True
  | .dateNow => True
  | .updateOutbox .. => True
  | .countPending => True
  | _ => False

theorem awaits_batch {config : OutboxConfig} {e : Effect}
    (waits : Awaits (drainBatch config) events e) :
    (events = [] ∧ e = .selectPending config.batchSize) ∨ e.follows := by
  have gauge : refreshPendingGauge.Only Effect.follows :=
    only_bind (by simp [Effect.follows]) fun _ => trivial
  have failed : ∀ error rows, (markFailed config.maxAttempts error rows).Only Effect.follows := by
    intro error rows
    induction rows with
    | nil => trivial
    | cons row rows ih =>
      refine only_bind (by simp [Effect.follows]) fun now => ?_
      exact only_bind (by simp [Effect.follows]) fun _ => ih
  rcases awaits_first waits with first | ⟨r, rest, rfl, later⟩
  · exact .inl first
  · refine .inr (Only.awaits (only_bind (only_ofExcept r) fun rows => ?_) later)
    split
    · exact only_bind gauge fun _ => trivial
    · refine only_bind (only_outcome ?_) fun r => ?_
      · unfold publishBatch
        split
        · trivial
        · simp [send, Effect.follows]
      · cases r with
        | error x => exact only_bind (failed x rows) fun _ => trivial
        | ok u => exact only_bind (by simp [Effect.follows]) fun _ => only_bind gauge fun _ => trivial

def Effect.relays : Effect → Prop
  | .selectPending _ => True
  | .updateOutbox .. => True
  | _ => False

/-- Whatever is no drain leaves the rows of the outbox alone. -/
theorem others_only {j : Job} (other : ∀ config replica, j ≠ .drainOnce config replica) :
    j.code.Only fun e => ¬ e.relays := by
  have wraps : ∀ e : Effect, e.wraps → ¬ e.relays := by
    intro e wraps relays
    cases e <;> first | exact wraps | exact relays
  have books : ∀ e : Effect, e.books → ¬ e.relays := by
    intro e books relays
    cases e <;> first | exact books | exact relays
  cases j with
  | create dto => exact only_bind ((only_await _).mpr fun h => h) fun _ => trivial
  | book config eventId dto context =>
    exact only_bind (book_only (only_mono books bookInTransaction_books) wraps) fun _ => trivial
  | integrity eventId => exact only_bind (only_mono wraps integrity_wraps) fun _ => trivial
  | drainOnce config replica => exact absurd rfl (other config replica)

theorem chosen_nil (h : ∀ y ∈ events, ¬ y.1.relays) : chosen events = [] := by
  refine List.flatMap_eq_nil_iff.mpr fun y hy => ?_
  unfold Exchange.picks
  split
  · exact absurd trivial (h _ hy)
  · rfl

theorem asks_begin {j : Job} (waits : Awaits j.code events .beginTx) : chosen events = [] := by
  by_cases other : ∀ config replica, j ≠ .drainOnce config replica
  · exact chosen_nil ((others_only other).awaited waits)
  · simp only [not_forall, not_not] at other
    obtain ⟨config, replica, rfl⟩ := other
    rcases awaits_drain waits with ⟨-, no⟩ | ⟨rest, rfl, inside⟩ | no
    · cases no
    · rcases awaits_transaction inside with ⟨rfl, -⟩ | ⟨rest, rfl, body | ⟨_, -, no⟩⟩ | no
      · rfl
      · rcases awaits_batch body with ⟨-, no⟩ | no
        · cases no
        · exact no.elim
      · cases no
      · cases no
    · cases no

theorem asks_rows {j : Job} {limit : Int} (waits : Awaits j.code events (.selectPending limit)) :
    chosen events = [] ∧ ∀ now row, marked now events row = row := by
  by_cases other : ∀ config replica, j ≠ .drainOnce config replica
  · exact absurd trivial ((others_only other).awaits waits)
  · simp only [not_forall, not_not] at other
    obtain ⟨config, replica, rfl⟩ := other
    rcases awaits_drain waits with ⟨-, no⟩ | ⟨rest, rfl, inside⟩ | no
    · cases no
    · rcases awaits_transaction inside with ⟨-, no⟩ | ⟨rest, rfl, body | ⟨_, -, no⟩⟩ | no
      · cases no
      · rcases awaits_batch body with ⟨rfl, -⟩ | no
        · exact ⟨rfl, fun _ _ => rfl⟩
        · exact no.elim
      · cases no
      · cases no
    · cases no

theorem marking_known {ids : List Uuid} {patch : OutboxPatch} (h : Working t events s)
    (marking : Marking R t ids patch s) : ∀ x ∈ ids, x ∈ (chosen events).map (·.id) := by
  have known : ∀ {rows : List OutboxRow}, Owns t [] [] none rows s →
      ∀ r ∈ rows, r.id ∈ (chosen events).map (·.id) := by
    intro rows owns r hr
    obtain ⟨c, hc, rfl⟩ := owns.picked r hr
    exact List.mem_map_of_mem (h.held c hc).1
  intro x hx
  cases marking with
  | published rows owns ids_eq =>
    rw [ids_eq] at hx
    obtain ⟨r, hr, rfl⟩ := List.mem_map.mp hx
    exact known owns r hr
  | failed rows row maxAttempts error now owns mine ids_eq =>
    rw [ids_eq] at hx
    rw [List.mem_singleton.mp hx]
    exact known owns row mine

theorem Working.own {e : Effect} {c : Choice} {r : Except Err e.Answer} {j : Job}
    (inv : Consistent s) (here : At R t e s) (waits : Awaits j.code events e)
    (h : s.active t = true → Working t events s)
    (he : exec partition t s e c = some (s', r)) (act : s'.active t = true) :
    Working t (events ++ [⟨e, r⟩]) s' := by
  have rest : Exchange.aside ⟨e, r⟩ = true → Working t (events ++ [⟨e, r⟩]) s' := by
    intro aside
    obtain ⟨was, held, began⟩ := exec_aside aside he act
    exact (h was).aside aside held began
  cases e with
  | beginTx =>
    cases r with
    | error x => exact rest rfl
    | ok u =>
      obtain ⟨idle, rfl⟩ := begin_ok he
      have none : chosen (events ++ [⟨.beginTx, .ok ()⟩]) = [] := by
        rw [chosen_append, asks_begin waits]
        rfl
      have unheld : (s.beginTx t).outbox.held t = [] := inv.wf.quietOutbox t idle
      constructor
      · rw [unheld]
        simp
      · rw [none]
        simp
      · rw [none]
        exact List.nodup_nil
  | selectPending limit =>
    cases r with
    | error x => exact rest rfl
    | ok rows =>
      obtain ⟨none, unmarked⟩ := asks_rows waits
      obtain ⟨-, was, sel, rfl⟩ := selectPending_ok he
      exact (h was).select none unmarked sel
  | updateOutbox ids patch =>
    cases r with
    | error x => exact rest rfl
    | ok u =>
      obtain ⟨was, -, rfl⟩ := updateOutbox_ok he
      exact (h was).update inv.wf was (marking_known (h was) (here was))
  | _ => exact rest rfl

/-- In every run, what an open transaction holds is what its task has been answered. -/
theorem working (run : (api partition).History R.Ok migrated entries p)
    (act : p.shared.active t = true) : Working t (eventsOf t entries) p.shared := by
  induction run with
  | refl => cases act
  | @step entries q q' a before ok st ih =>
    have sound := api_sound before.reach
    have kept : (api partition).logged q a = [] → q'.shared = q.shared →
        Working t (eventsOf t (entries ++ (api partition).logged q a)) q'.shared := by
      intro none same
      rw [none, List.append_nil, same]
      exact ih (same ▸ act)
    cases Machine.steps_of_step st with
    | @start t' j => exact kept rfl (settle_shared t' j q.shared _)
    | kill => exact kept rfl rfl
    | @env x s happened =>
      have f := ext_frame happened t
      have was : q.shared.active t = true := (active_congr (f.tx act)).symm.trans act
      rw [show (api partition).logged q (.env x) = [] from rfl, List.append_nil]
      exact (ih was).frame f act
    | @step t' c j e k s r live answered =>
      have shared : (Machine.put q t' ((api partition).settle t' j s (k r))).shared = s :=
        settle_shared t' j s _
      rw [shared] at act ⊢
      rw [Machine.logged_step live answered]
      by_cases own : t' = t
      · subst own
        rw [eventsOf_own entries ⟨t', e, r, q.shared, s⟩]
        have tracks := before.tracks t'
        rw [live] at tracks
        have here := Logic.Sound.here sound live
        exact Working.own sound.inv here tracks.awaits ih answered act
      · have f := touch_frame sound.inv.wf (Ne.symm own) (exec_touch answered)
        have was : q.shared.active t = true := (active_congr (f.tx act)).symm.trans act
        rw [eventsOf_other (by exact own)]
        exact (ih was).frame f act

end Overbook
