import Overbook.Discipline.Assertions
import Overbook.Outbox.Disjoint

/-! A batch is published as a whole and put off as a whole, so a message that the broker refuses
counts up every row that it was selected with. Rows of accepted messages are left alone as long as
no batch holds messages of both kinds. -/
namespace Overbook

open Async Prog ReadCommitted Kafka Store

/-- Any crashes and failures, but a batch is refused only where all its messages are. -/
def isolated (refuses : BookingMessage → Bool) : Regime where
  allowed _ := True
  answers _ _ e c := match e, c with
    | .sendBatch batch, .refused _ => ∀ m ∈ sent batch, refuses m = true
    | _, _ => True
  crashes := True

/- This version of a row is among the committed ones, but for the columns of the relays. -/
def Known (r : OutboxRow) (s : Store) : Prop := ∃ r' ∈ s.outbox.committed, r'.envelope = r.envelope

/-- Rows start at zero attempts, and an update counts up a row of a refused message, or none. -/
def Charges (refuses : BookingMessage → Bool) (_ : Tid) (e : Effect) (s : Store) : Prop :=
  match e with
  | .insertOutbox row => row.attempts = 0
  | .updateOutbox ids patch => (patch.attempts = none ∧ patch.status ≠ some .failed) ∨
      ∃ r, ids = [r.id] ∧ refuses (relayMessage r) = true ∧ Known r s
  | _ => True

variable {refuses : BookingMessage → Bool} {partition : String → String → Nat} {t : Tid}
  {s s' : Store}

theorem Known.grows {r : OutboxRow} (h : Known r s) (grows : Grows s s') : Known r s' := by
  obtain ⟨r', mem, same⟩ := h
  obtain ⟨r'', mem', same'⟩ := List.mem_map.mp (grows.outbox.subset (List.mem_map_of_mem mem))
  exact ⟨r'', mem', same'.trans same⟩

abbrev fairness (refuses : BookingMessage → Bool) (partition : String → String → Nat) :
    Layer (discipline (isolated refuses) partition) :=
  asserting (isolated refuses) partition (Charges refuses)

theorem charges_routine (t : Tid) (e : Effect) (s : Store) (h : e.routine) :
    Charges refuses t e s := by
  cases e with
  | insertOutbox => exact h.elim
  | updateOutbox => exact h.elim
  | _ => trivial

/-- All rows of a refused batch are counted up. -/
theorem markFailed_charges {config : OutboxConfig} {error : Err} {rows : List OutboxRow}
    (refused : ∀ r ∈ rows, refuses (relayMessage r) = true) (known : ∀ r ∈ rows, Known r s) :
    (fairness refuses partition).rest.Safe t (markFailed config.maxAttempts error rows)
      (fun _ _ => True) s := by
  induction rows generalizing s with
  | nil => trivial
  | cons row rows ih =>
    unfold markFailed
    apply Logic.Safe.bind
    refine Layer.await_safe fun s₁ f₁ _ => ⟨trivial, fun c s₂ r _ _ he _ => ?_⟩
    cases r with
    | error x => trivial
    | ok now =>
      cases dateNow_ok he
      apply Logic.Safe.bind
      refine Layer.await_safe fun s₃ f₃ inv => ?_
      have known₃ : ∀ r ∈ row :: rows, Known r s₃ :=
        fun r hr => ((known r hr).grows f₁.1.frame.grows).grows f₃.1.frame.grows
      refine ⟨.inr ⟨row, rfl, refused row (List.mem_cons_self ..), known₃ row (List.mem_cons_self ..)⟩,
        fun c s₄ r _ _ he _ => ?_⟩
      cases r with
      | error x => trivial
      | ok u =>
        have grows := touch_grows inv.1.wf (exec_touch he)
        refine ih (fun r hr => refused r (List.mem_cons_of_mem row hr)) fun r hr => ?_
        exact (known₃ r (List.mem_cons_of_mem row hr)).grows grows

theorem drainBatch_charges {config : OutboxConfig} :
    (fairness refuses partition).rest.Safe t (drainBatch config) (fun _ _ => True) s := by
  unfold drainBatch
  apply Logic.Safe.bind
  refine Layer.await_safe fun s₁ _ inv => ⟨trivial, fun c s₂ r _ _ he _ => ?_⟩
  cases r with
  | error x => trivial
  | ok rows =>
    obtain ⟨-, -, sel, -⟩ := selectPending_ok he
    have known : ∀ r ∈ rows, Known r s₂ := by
      intro r hr
      obtain ⟨c, hc, rfl, -⟩ := selects_eligible sel r hr
      have here : Known c.committed s₁ := ⟨_, List.mem_map_of_mem hc, rfl⟩
      exact here.grows (touch_grows inv.1.wf (exec_touch he))
    cases rows with
    | nil => exact asserting_quiet charges_routine (by simp [refreshPendingGauge, only_bind, Effect.routine])
    | cons row rest =>
      apply Logic.Safe.bind
      apply Logic.Safe.outcome
      have marked : ∀ s, (fairness refuses partition).rest.Safe t
          (do
            ask (.updateOutbox ((row :: rest).map (·.id)) publishedPatch)
            refreshPendingGauge
            pure (row :: rest).length : Service Nat) (fun _ _ => True) s := by
        intro s
        apply Logic.Safe.bind
        refine Layer.await_safe fun s₁ _ _ => ⟨.inl ⟨rfl, by simp [publishedPatch]⟩, ?_⟩
        intro c s₂ r _ _ _ _
        cases r with
        | error x => trivial
        | ok u =>
          exact asserting_quiet charges_routine
            (by simp [refreshPendingGauge, only_bind, Effect.routine])
      unfold publishBatch
      split
      · exact marked _
      · refine Layer.await_safe fun s₃ f₃ inv => ⟨trivial, fun c s₄ r ok _ he _ => ?_⟩
        have grows := touch_grows inv.1.wf (exec_touch he)
        obtain ⟨rfl, rfl, -⟩ | ⟨parts, rfl, rfl, rfl⟩ := sendBatch_cases he
        · exact marked _
        · apply Logic.Safe.bind
          refine (markFailed_charges (fun r hr => ?_) fun r hr => ?_).mono fun r _ _ => by
            cases r <;> trivial
          · exact ok _ (mem_sent_byTopic.mpr (List.mem_map_of_mem hr))
          · exact ((known r hr).grows f₃.1.frame.grows).grows grows

def Effect.modest : Effect → Prop
  | .insertOutbox row => row.attempts = 0
  | .updateOutbox .. => False
  | _ => True

theorem charges_modest (t : Tid) (e : Effect) (s : Store) (h : e.modest) :
    Charges refuses t e s := by
  cases e with
  | insertOutbox => exact h
  | updateOutbox => exact h.elim
  | _ => trivial

theorem book_modest (config : AppConfiguration) (eventId : Uuid) (dto : CreateBookingDto)
    (context : BookingContext) : (book config eventId dto context).Only Effect.modest := by
  refine book_only ?_ fun e he => ?_
  · unfold bookInTransaction
    refine only_bind (only_mono (fun e he => ?_) decrement_seats) fun result => ?_
    · cases e <;> trivial
    refine only_bind (by simp [Effect.modest]) fun booking => ?_
    refine only_bind (only_runIf ?_) fun _ => trivial
    refine only_bind (only_bind (by simp [Effect.modest]) fun _ => ?_) fun _ => trivial
    simp [Effect.modest]
  · cases e <;> trivial

theorem fairness_verified :
    Logic.Verified (fairness refuses partition).logic (isolated refuses).Ok
      (fun _ _ _ _ => True ∧ True) := by
  refine asserting_verified fun t j s _ => ?_
  cases j with
  | create dto =>
    exact asserting_quiet charges_modest (only_bind (by simp [create, Effect.modest]) fun _ => trivial)
  | book config eventId dto context =>
    exact asserting_quiet charges_modest
      (only_bind (book_modest config eventId dto context) fun _ => trivial)
  | integrity eventId =>
    refine asserting_quiet charges_modest
      (only_bind (only_mono (fun e he => ?_) integrity_wraps) fun _ => trivial)
    cases e <;> trivial
  | drainOnce config replica =>
    apply Logic.Safe.bind
    refine (asserting_drain charges_routine fun s _ => drainBatch_charges).mono fun r s _ => ?_
    cases r <;> trivial

/-- A row that has kept the attempts it had among the rows `old`, or had none if it is new, and
has not been given up. -/
def Unharmed (old : List OutboxRow) (r : OutboxRow) : Prop :=
  (∃ r₀ ∈ old, r₀.id = r.id ∧ r.attempts = r₀.attempts ∧
      (r.status = .failed → r₀.status = .failed)) ∨
    (∀ r₀ ∈ old, r₀.id ≠ r.id) ∧ r.attempts = 0 ∧ r.status ≠ .failed

/-- The rows of accepted messages are spared, in every working copy, since `s₀`. -/
structure Fair (refuses : BookingMessage → Bool) (s₀ s : Store) : Prop where
  grows : Grows s₀ s
  pending : ∀ t, ∀ m ∈ (s.tx t).outbox, m.attempts = 0
  rows : s.outbox.Throughout fun r =>
    refuses (relayMessage r) = false → Unharmed s₀.outbox.committed r

theorem insertOutbox_tx {row : CreateOutboxMessage} {c : Choice} {r : Except Err OutboxRow}
    (h : exec partition t s (.insertOutbox row) c = some (s', r)) :
    s' = s.abort t ∨ ∃ m : OutboxRow, m.attempts = row.attempts ∧ s' = (s.issue m.id t).setTx t
      { s.tx t with outbox := (s.tx t).outbox ++ [m] } := by
  cases r with
  | ok m =>
    obtain ⟨-, -, shape, rfl⟩ := insertOutbox_ok h
    exact .inr ⟨m, by rw [shape], rfl⟩
  | error x =>
    cases c <;> simp only [exec, failed, reduceCtorEq] at h
    · exact .inl (Prod.mk.inj (Option.some.inj h)).1.symm
    · split at h <;> cases h

theorem touch_pending {e : Effect} {c : Choice} (touch : Touch t s e c s')
    (other : ∀ row, e ≠ .insertOutbox row) (t' : Tid) :
    (s'.tx t').outbox = (s.tx t').outbox ∨ (s'.tx t').outbox = [] := by
  have cleared : ((s.abort t).tx t').outbox = (s.tx t').outbox ∨ ((s.abort t).tx t').outbox = [] := by
    unfold abort
    split
    · by_cases own : t' = t <;> simp [own]
    · exact .inl rfl
  cases touch with
  | rest s' _ _ _ tx => exact .inl (by rw [tx])
  | begun => by_cases own : t' = t <;> simp [Store.beginTx, Store.setTx, own]
  | committed => by_cases own : t' = t <;> simp [Store.commitTx, own]
  | aborted => exact cleared
  | rolledBack => by_cases own : t' = t <;> simp [Store.rollbackTx, Store.setTx, own, cleared]
  | created => exact .inl rfl
  | event => exact .inl rfl
  | booking => by_cases own : t' = t <;> simp [Store.issue, Store.setTx, own]
  | message row => exact absurd rfl (other row)
  | selected => by_cases own : t' = t <;> simp [Store.putOutbox, Store.setTx, own]
  | updated => exact .inl rfl
  | sent => exact .inl rfl

/-- No statement puts a row with attempts into a transaction. -/
theorem pending_step {e : Effect} {c : Choice} {r : Except Err e.Answer}
    (here : Charges refuses t e s) (h : ∀ t, ∀ m ∈ (s.tx t).outbox, m.attempts = 0)
    (he : exec partition t s e c = some (s', r)) : ∀ t, ∀ m ∈ (s'.tx t).outbox, m.attempts = 0 := by
  by_cases insert : ∃ row, e = .insertOutbox row
  · obtain ⟨row, rfl⟩ := insert
    rcases insertOutbox_tx he with rfl | ⟨m, attempts, rfl⟩
    · intro t' m hm
      rcases touch_pending (c := .fail) (.aborted (t := t) (e := .beginTx) trivial) nofun t' with
        same | none
      · exact h t' m (same ▸ hm)
      · rw [none] at hm
        cases hm
    · intro t' m' hm
      rcases eq_or_ne t' t with rfl | ne
      · rw [setTx_self] at hm
        rcases List.mem_append.mp hm with hm | hm
        · exact h t' m' hm
        · rw [List.mem_singleton.mp hm, attempts]
          exact here
      · rw [setTx_other ne] at hm
        exact h t' m' hm
  · intro t' m hm
    rcases touch_pending (exec_touch he) (fun row same => insert ⟨row, same⟩) t' with same | none
    · exact h t' m (same ▸ hm)
    · rw [none] at hm
      cases hm

theorem unharmed_new {s₀ : Store} (wf : WF s) (h : Fair refuses s₀ s)
    (pending : ∀ r ∈ (s.tx t).outbox, r.status = .pending) :
    ∀ r ∈ (s.tx t).outbox, Unharmed s₀.outbox.committed r := by
  refine fun r hr => .inr ⟨fun r₀ h₀ same => ?_, h.pending t r hr, by rw [pending r hr]; decide⟩
  obtain ⟨r', mem, env⟩ := List.mem_map.mp (h.grows.outbox.subset (List.mem_map_of_mem h₀))
  refine wf.outbox.apart t r.id (List.mem_map_of_mem hr) ?_
  rw [← same, ← envelope_id env]
  exact List.mem_map_of_mem mem

theorem unharmed_apply {old : List OutboxRow} {patch : OutboxPatch} {r : OutboxRow} (now : Time)
    (attempts : patch.attempts = none) (status : patch.status ≠ some .failed)
    (h : Unharmed old r) : Unharmed old (patch.apply now r) := by
  have kept : (patch.apply now r).attempts = r.attempts := by simp [OutboxPatch.apply, attempts]
  have given : (patch.apply now r).status = .failed → r.status = .failed := by
    cases new : patch.status with
    | none => simp [OutboxPatch.apply, new]
    | some st =>
      intro failed
      rw [new] at status
      exact absurd (congrArg some (by simpa [OutboxPatch.apply, new] using failed)) status
  rcases h with ⟨r₀, h₀, id, same, gave⟩ | ⟨fresh, zero, alive⟩
  · exact .inl ⟨r₀, h₀, id, kept.trans same, fun failed => gave (given failed)⟩
  · exact .inr ⟨fresh, kept.trans zero, fun failed => alive (given failed)⟩

theorem fair_step {s₀ : Store} {e : Effect} {c : Choice} {r : Except Err e.Answer} (wf : WF s)
    (here : At (isolated refuses) t e s) (charges : Charges refuses t e s)
    (h : Fair refuses s₀ s) (he : exec partition t s e c = some (s', r)) :
    Fair refuses s₀ s' := by
  have touch := exec_touch he
  refine ⟨h.grows.trans (touch_grows wf touch), pending_step charges h.pending he, ?_⟩
  have release : (s.abort t).outbox.Throughout fun r =>
      refuses (relayMessage r) = false → Unharmed s₀.outbox.committed r := by
    unfold abort
    split
    · exact h.rows.rollback t
    · exact h.rows
  cases touch with
  | rest s' _ _ outbox => rw [outbox]; exact h.rows
  | committed act =>
    exact (h.rows.commit t).insert fun r hr _ => unharmed_new wf h (ready_added (here act)) r hr
  | aborted => exact release
  | rolledBack => exact release
  | selected limit rows => exact h.rows.write t _ fun _ hv => hv
  | updated ids patch act =>
    refine h.rows.write_of t _ fun c hc written t' spared good => ?_
    have same : relayMessage (patch.apply (s.now t) (c.view t')) = relayMessage c.committed :=
      (relayMessage_envelope (envelope_apply ..)).trans (relayMessage_envelope (wf.envelope c hc t'))
    rcases charges with ⟨attempts, status⟩ | ⟨row, rfl, refused, r', mem, env⟩
    · refine unharmed_apply _ attempts status (spared ?_)
      rw [relayMessage_envelope (wf.envelope c hc t'), ← same]
      exact good
    · -- the update is about the row of a refused message, and no other
      have id : c.committed.id = row.id := by simpa [among] using written
      have one : c.committed = r' :=
        List.inj_on_of_nodup_map wf.outbox.nodup (List.mem_map_of_mem hc) mem
          (id.trans (envelope_id env).symm)
      rw [same, one, relayMessage_envelope env, refused] at good
      cases good
  | _ => exact h.rows

theorem fair_run {s₀ : Store} {p q : ApiPool}
    (sound : Logic.Sound (fairness refuses partition).logic (fun _ _ _ _ => True ∧ True) p)
    (run : (api partition).Reach (isolated refuses).Ok p q) (start : Fair refuses s₀ p.shared) :
    Fair refuses s₀ q.shared := by
  refine Logic.reach_invariant fairness_verified sound run start ?_ (fun _ _ _ _ _ _ h => h) ?_
  · exact fun t s e c s' r inv here _ h he _ => fair_step inv.1.wf here.1 here.2 h he
  · intro q x s' _ inv h hx
    cases x with
    | tick d =>
      cases Option.some.inj hx
      exact ⟨h.grows.trans { Grows.refl q.shared with }, h.pending, h.rows⟩
    | abortTx t =>
      cases Option.some.inj hx
      have aborted : exec partition t q.shared .beginTx .fail = some (q.shared.abort t, .error lost) :=
        rfl
      exact fair_step (e := .beginTx) inv.1.wf trivial trivial h aborted

theorem fairness_migrated :
    Logic.Sound (fairness refuses partition).logic (fun _ _ _ _ => True ∧ True) migrated :=
  Logic.initial_sound (L := (fairness refuses partition).logic)
    ⟨empty_consistent, trivial⟩ fun _ => ⟨⟨rfl, fun _ h => nomatch h⟩, trivial⟩

/-- From any table on that runs of any kind have led to, with no call under way and no row locked:
in every run in which a batch is refused only where all its messages are, the row of a message that
is not refused keeps its attempts and is not given up. -/
theorem good_rows_spared (partition : String → String → Nat) (refuses : BookingMessage → Bool)
    (p q : ApiPool) (past : (api partition).Reach everything.Ok migrated p)
    (resting : ∀ t, (p.slot t).isLive = false) (unlocked : ∀ c ∈ p.shared.outbox, c.holder = none)
    (run : (api partition).Reach (isolated refuses).Ok p q) :
    ∀ r ∈ q.shared.outbox.committed, refuses (relayMessage r) = false →
      Unharmed p.shared.outbox.committed r := by
  -- nothing is asked of the past: there every message may be refused
  have anything : (api partition).Reach (isolated fun _ => true).Ok migrated p := by
    refine past.mono fun q a ok => ?_
    cases a with
    | step t c =>
      intro j e k _
      cases e <;> cases c <;> first | trivial | exact fun _ _ => rfl
    | env x => cases x <;> trivial
    | _ => trivial
  have before := Logic.reach_sound fairness_verified fairness_migrated anything
  have empty : Fair (fun _ => true) ({} : Store) migrated.shared :=
    ⟨.refl _, fun _ _ h => (nomatch h), fun _ h => nomatch h⟩
  have pending := (fair_run fairness_migrated anything empty).pending
  have sound : Logic.Sound (fairness refuses partition).logic (fun _ _ _ _ => True ∧ True) p := by
    refine ⟨before.inv, before.fresh, fun t j e k live => ?_, before.ended, before.gone⟩
    have rests := resting t
    rw [live] at rests
    cases rests
  have start : Fair refuses p.shared p.shared := by
    refine ⟨.refl _, pending, fun c hc => ?_⟩
    have kept : Unharmed p.shared.outbox.committed c.committed :=
      .inl ⟨c.committed, List.mem_map_of_mem hc, rfl, rfl, fun h => h⟩
    have view : ∀ t, c.view t = c.committed := by
      intro t
      simp [Cell.view, unlocked c hc]
    exact ⟨fun _ => kept, fun t _ => (view t).symm ▸ kept⟩
  intro r hr good
  obtain ⟨c, hc, rfl⟩ := List.mem_map.mp hr
  exact ((fair_run sound run start).rows c hc).1 good

/- A broker that refuses the messages of one topic. -/
def refusesAudit (m : BookingMessage) : Bool := m.topic == "audit.events"

/- The `n`-th call books one seat and announces it on `topic`. -/
def bookingOn (topic : String) (n : Nat) : List (Act Job Choice Ext) :=
  .start n (.book { kafka := { topics := { booking := topic } } } "e" (.checked "user" 1 passed) {}) ::
    [Choice.ok, .ok, .ok, .uuid s!"b{n}", .time 0, .uuid s!"m{n}", .ok, .ok, .ok].map (.step n)

def rowOn (topic : String) (n : Nat) : OutboxRow :=
  ⟨s!"m{n}", "booking", s!"b{n}", bookingConfirmed, topic, "e",
    ⟨s!"b{n}", "e", "user", 1, "show", 0, none⟩, .pending, 0, 0, none, none, 0⟩

def openShow : List (Act Job Choice Ext) :=
  [.start 0 (.create (.checked "show" "hall" 2 0 "2026-12-01T12:00:00Z" passed)),
    .step 0 (.uuid "e")]

/- Each of the two messages has a batch of its own. -/
def apart : List (Act Job Choice Ext) :=
  openShow ++ bookingOn "booking.events" 1 ++
  .start 2 (.drainOnce {} 0) :: [Choice.ok, .ok, .rows [rowOn "booking.events" 1], .ok, .ok, .ok, .ok,
    .ok].map (.step 2) ++ bookingOn "audit.events" 3 ++
  .start 4 (.drainOnce {} 0) :: [Choice.ok, .ok, .rows [rowOn "audit.events" 3], .refused [], .time 0,
    .ok, .ok, .ok].map (.step 4)

def isolatedAct (refuses : BookingMessage → Bool) (p : ApiPool) : Act Job Choice Ext → Bool
  | .step t (.refused _) => match p.slot t with
    | .live _ (.sendBatch batch) _ => (sent batch).all refuses
    | _ => true
  | _ => true

theorem isolated_run {as : List (Act Job Choice Ext)} {p q : ApiPool}
    (h : (api partition).runChecked (isolatedAct refuses) p as = some q) :
    (api partition).Reach (isolated refuses).Ok p q := by
  refine .of_checked h fun a _ r passed => ?_
  cases a with
  | step t c =>
    intro j e k live
    cases c with
    | refused parts =>
      cases e with
      | sendBatch batch =>
        simp only [isolatedAct, live] at passed
        exact List.all_eq_true.mp passed
      | _ => trivial
    | _ => cases e <;> trivial
  | env x => cases x <;> trivial
  | _ => trivial

theorem good_rows_spared_apart : ∃ q : ApiPool,
    (q.shared.outbox.committed.map fun r => (r.status, r.attempts)) =
      [(.published, 0), (.pending, 1)] ∧
    ∀ r ∈ q.shared.outbox.committed, refusesAudit (relayMessage r) = false → Unharmed [] r := by
  have replay : (((api fun _ _ => 0).runChecked (isolatedAct refusesAudit) migrated apart).map
      fun q => q.shared.outbox.committed.map fun r => (r.status, r.attempts)) =
      some [(.published, 0), (.pending, 1)] := by decide +kernel
  obtain ⟨q, run, rows⟩ := Option.map_eq_some_iff.mp replay
  have empty : ∀ c ∈ migrated.shared.outbox, c.holder = none := List.forall_mem_nil _
  exact ⟨q, rows, good_rows_spared (fun _ _ => 0) refusesAudit migrated q .refl (fun _ => rfl) empty
    (isolated_run run)⟩

/-- Nothing fails but the batches that hold a refused message, and those always do. -/
def picky (refuses : BookingMessage → Bool) : Regime where
  allowed _ := True
  answers _ _ e c := match e, c with
    | .sendBatch batch, .ok => ∀ m ∈ sent batch, refuses m = false
    | .sendBatch batch, .refused _ => ∃ m ∈ sent batch, refuses m = true
    | e, c => ¬ Failing e c
  crashes := False

/- Both messages are in one batch. -/
def together : List (Act Job Choice Ext) :=
  openShow ++ bookingOn "booking.events" 1 ++ bookingOn "audit.events" 3 ++
  .start 4 (.drainOnce {} 0) :: [Choice.ok, .ok,
    .rows [rowOn "booking.events" 1, rowOn "audit.events" 3], .refused [], .time 0, .ok, .time 0,
    .ok, .ok, .ok].map (.step 4)

def pickyAct (refuses : BookingMessage → Bool) (p : ApiPool) : Act Job Choice Ext → Bool
  | .step t c => match p.slot t with
    | .live _ (.sendBatch batch) _ => match c with
      | .ok => (sent batch).all fun m => !refuses m
      | .refused _ => (sent batch).any refuses
      | _ => smoothAct (.step t c)
    | _ => smoothAct (.step t c)
  | a => smoothAct a

theorem not_failing {e : Effect} {c : Choice} (h : smoothAct (.step t c) = true) :
    ¬ Failing e c := by
  cases c <;> first | exact absurd h Bool.false_ne_true | (cases e <;> exact id)

theorem picky_run {as : List (Act Job Choice Ext)} {p q : ApiPool}
    (h : (api partition).runChecked (pickyAct refuses) p as = some q) :
    (api partition).Reach (picky refuses).Ok p q := by
  refine .of_checked h fun a _ r passed => ?_
  cases a with
  | start t j => trivial
  | step t c =>
    intro j e k live
    simp only [pickyAct, live] at passed
    cases e with
    | sendBatch batch =>
      cases c with
      | ok => simpa [picky] using passed
      | refused => simpa [picky] using passed
      | _ => exact not_failing passed
    | _ => exact not_failing passed
  | kill t => cases passed
  | env x => cases x <;> trivial

/-- One drain counts up the row of a message that the broker would accept. -/
theorem good_row_counted : ¬ ∀ q : ApiPool,
    (api fun _ _ => 0).Reach (picky refusesAudit).Ok migrated q →
      ∀ r ∈ q.shared.outbox.committed, refusesAudit (relayMessage r) = false → Unharmed [] r := by
  intro claim
  have replay : (((api fun _ _ => 0).runChecked (pickyAct refusesAudit) migrated together).map
      fun q => q.shared.outbox.committed.map fun r => (refusesAudit (relayMessage r), r.attempts)) =
      some [(false, 1), (true, 1)] := by decide +kernel
  obtain ⟨q, run, rows⟩ := Option.map_eq_some_iff.mp replay
  have mem : (false, 1) ∈ q.shared.outbox.committed.map
      fun r => (refusesAudit (relayMessage r), r.attempts) := by rw [rows]; simp
  obtain ⟨r, hr, eq⟩ := List.mem_map.mp mem
  obtain ⟨good, counted⟩ := Prod.mk.inj eq
  rcases claim q (picky_run run) r hr good with ⟨_, old, _⟩ | ⟨_, none, _⟩
  · cases old
  · rw [none] at counted
    cases counted

end Overbook
