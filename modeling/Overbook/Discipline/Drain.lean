import Overbook.Discipline.Book

/-! A drain, statement by statement, and with it the verification of all four operations. -/
namespace Overbook

open Async Prog ReadCommitted Kafka Store

variable {R : Regime} {partition : String → String → Nat} {t : Tid} {s : Store}

/-- The rows that the queue query returns are pending, and from then on `t` holds them. -/
theorem Owns.select {limit : Int} {rows : List OutboxRow} (h : Clean t s)
    (sel : Selects limit ((s.outbox.filter (s.eligible t)).map (·.committed)) rows) :
    Owns t [] [] none rows ((s.putOutbox (s.outbox.write t (s.picks t rows) id)).setTx t
      { s.tx t with selected := rows.map (·.id) }) := by
  have picked := selects_eligible sel
  refine ⟨?_, ?_, h.events, by rw [setTx_self], fun c hc => ?_, fun r hr => ?_, fun r hr => ?_⟩
  · rw [setTx_self]; exact h.bookings
  · rw [setTx_self]; exact h.outbox
  · obtain ⟨hc, held⟩ := Rows.mem_held.mp hc
    obtain ⟨d, hd, rfl⟩ := List.mem_map.mp hc
    split at held
    · rename_i hp
      simp only [hp, if_true]
      simp only [picks, Bool.and_eq_true] at hp
      simpa using hp.1
    · exact absurd (h.held d (Rows.mem_held.mpr ⟨hd, held⟩)) List.not_mem_nil
  · obtain ⟨c, hc, rfl, elig⟩ := picked r hr
    have hp : s.picks t rows c = true := by simp [picks, elig, hr]
    refine ⟨c.write t (c.view t), Rows.mem_held.mpr ⟨?_, by simp⟩, rfl⟩
    exact List.mem_map.mpr ⟨c, hc, by simp [hp]⟩
  · obtain ⟨c, _, rfl, elig⟩ := picked r hr
    simp only [eligible, Bool.and_eq_true, beq_iff_eq] at elig
    exact elig.1.1

theorem row_of_id {rows : List OutboxRow} (wf : WF s) (h : Owns t [] [] none rows s)
    {c : Cell OutboxRow} (hc : c ∈ s.outbox) (id : c.committed.id ∈ rows.map (·.id)) :
    c.committed ∈ rows := by
  obtain ⟨r, hr, same⟩ := List.mem_map.mp id
  obtain ⟨d, hd, rfl⟩ := h.picked r hr
  have hd' := (Rows.mem_held.mp hd).1
  have eq : d.committed = c.committed := List.inj_on_of_nodup_map wf.outbox.nodup
    (List.mem_map_of_mem hd') (List.mem_map_of_mem hc) same
  exact eq ▸ hr

/-- An update of rows that `t` has selected leaves it holding the same rows. -/
theorem Owns.write {rows : List OutboxRow} {ids : List Uuid} {f : OutboxRow → OutboxRow}
    (wf : WF s) (h : Owns t [] [] none rows s) (sub : ∀ x ∈ ids, x ∈ rows.map (·.id)) :
    Owns t [] [] none rows (s.putOutbox (s.outbox.write t (among ids) f)) := by
  refine { h with held := fun c hc => ?_, picked := fun r hr => ?_ }
  · obtain ⟨hc, held⟩ := Rows.mem_held.mp hc
    obtain ⟨d, hd, rfl⟩ := List.mem_map.mp hc
    split at held
    · rename_i hp
      simp only [hp, if_true, Cell.write_committed]
      refine row_of_id wf h hd (sub _ ?_)
      simpa [among] using hp
    · rename_i hp
      simp only [hp]
      exact h.held d (Rows.mem_held.mpr ⟨hd, held⟩)
  · obtain ⟨d, hd, rfl⟩ := h.picked r hr
    obtain ⟨hd, held⟩ := Rows.mem_held.mp hd
    refine ⟨_, Rows.mem_held.mpr ⟨List.mem_map_of_mem hd, ?_⟩, ?_⟩
    · split
      · simp
      · exact held
    · split <;> rfl

theorem Owns.mark {rows : List OutboxRow} {now : Time} (h : Owns t [] [] none rows s) :
    ∀ c ∈ (s.outbox.write t (among (rows.map (·.id))) (publishedPatch.apply now)).held t,
      (c.view t).status = .published := by
  intro c hc
  obtain ⟨hc, held⟩ := Rows.mem_held.mp hc
  obtain ⟨d, hd, rfl⟩ := List.mem_map.mp hc
  split at held
  · rename_i hp
    simp only [hp, if_true, Cell.write_view]
    rfl
  · rename_i hp
    have mine := h.held d (Rows.mem_held.mpr ⟨hd, held⟩)
    refine absurd ?_ hp
    simp only [among, List.contains_iff_mem]
    exact List.mem_map_of_mem mine

/-- A drain transaction that may commit. -/
def Drained (R : Regime) (t : Tid) (s : Store) : Prop := ∃ rows, Owns t [] [] none rows s ∧
  (R.Fails ∨ ∀ c ∈ s.outbox.held t, (c.view t).status = .published)

theorem drained_stable : Stable t (Drained R t) := by
  rintro s s' ⟨rows, owns, done⟩ f act
  refine ⟨rows, owns_stable s s' owns f act, done.imp_right fun marked => ?_⟩
  rw [f.outbox act]
  exact marked

theorem refresh_safe {P : Store → Prop} (stable : Stable t P) (h : During R t P s) :
    (discipline R partition).Safe t refreshPendingGauge (Leaves R t fun _ => During R t P) s := by
  unfold refreshPendingGauge
  refine ask_bind h (during_steady stable) (fun _ _ _ => by trivial) ?_
  intro s₁ c s₂ n _ h₁ _ he
  cases countPending_ok he
  exact h₁

theorem markFailed_safe {rows todo : List OutboxRow} {maxAttempts : Int} {error : Err}
    (fails : R.Fails) (sub : ∀ r ∈ todo, r ∈ rows)
    (h : During R t (Owns t [] [] none rows) s) :
    (discipline R partition).Safe t (markFailed maxAttempts error todo)
      (Leaves R t fun _ => During R t (Owns t [] [] none rows)) s := by
  induction todo generalizing s with
  | nil => exact h
  | cons row todo ih =>
    have mine := sub row (List.mem_cons_self ..)
    unfold markFailed
    refine ask_bind h (during_steady owns_stable) (fun _ _ _ => by trivial) ?_
    intro s₁ c s₂ now _ h₁ _ he
    cases dateNow_ok he
    refine ask_bind h₁ (during_steady owns_stable) (fun s _ h act => ?_) ?_
    · exact .failed rows row maxAttempts error now (h.now act) mine rfl rfl fails
    · intro s₃ c s₄ u inv h₃ _ he
      obtain ⟨act, -, rfl⟩ := updateOutbox_ok he
      refine ih (fun r hr => sub r (List.mem_cons_of_mem row hr)) (.of act ?_)
      refine (h₃.now act).write inv.wf fun x hx => ?_
      rw [List.mem_singleton.mp hx]
      exact List.mem_map_of_mem mine

def Chosen (R : Regime) (t : Tid) (rows : List OutboxRow) (s : Store) : Prop :=
  During R t (Owns t [] [] none rows) s ∧ Asked R t rows s ∧ ∀ b ∈ s.batches, b.1 ≠ t

theorem chosen_steady {rows : List OutboxRow} : Steady R partition t (Chosen R t rows) :=
  (during_steady owns_stable).and
    ((grows_steady fun _ _ h g => asked_grows h g).and unsent_steady)

theorem publish_safe {rows : List OutboxRow} (some : rows ≠ []) (h : Chosen R t rows s) :
    (discipline R partition).Safe t (outcome (publishBatch send (rows.map relayMessage)))
      (Leaves R t fun r s => During R t (Owns t [] [] none rows) s ∧ match r with
        | .ok _ => ∀ r ∈ rows, relayMessage r ∈ s.kafka
        | .error _ => R.Fails) s := by
  apply Logic.Safe.outcome
  unfold publishBatch
  split
  · rename_i empty
    simp [some] at empty
  · refine ask_safe h chosen_steady (fun s _ h => .relay rows rfl h.2.1 h.1 h.2.2) ?_
    intro s₁ c s₂ r _ h₁ answers he
    have owns : ∀ kafka batches,
        During R t (Owns t [] [] none rows) { s₁ with kafka := kafka, batches := batches } := by
      intro kafka batches
      refine ⟨fun act => ?_, h₁.1.still⟩
      have o := h₁.1.now act
      exact ⟨o.bookings, o.outbox, o.events, o.selected, o.held, o.picked, o.pending⟩
    obtain ⟨rfl, rfl, rfl⟩ | ⟨parts, rfl, rfl, rfl⟩ := sendBatch_cases he
    · refine ⟨owns _ _, fun r hr => List.mem_append_right _ ?_⟩
      exact mem_sent_byTopic.mpr (List.mem_map_of_mem hr)
    · exact ⟨owns _ _, fails_of_error answers he (by simp)⟩

theorem drainBatch_safe {config : OutboxConfig} (unsent : ∀ b ∈ s.batches, b.1 ≠ t)
    (h : During R t (Clean t) s) :
    (discipline R partition).Safe t (drainBatch config)
      (Leaves R t fun _ => During R t (Drained R t)) s := by
  have done : ∀ {n : Nat} {s : Store}, During R t (Drained R t) s →
      (discipline R partition).Safe t (do refreshPendingGauge; pure n)
        (Leaves R t fun _ => During R t (Drained R t)) s :=
    fun hs => leaves_bind (refresh_safe drained_stable hs) fun _ _ h => h
  unfold drainBatch
  refine ask_bind ⟨h, unsent⟩ ((during_steady owns_stable).and unsent_steady)
    (fun _ _ _ => by trivial) ?_
  intro s₁ c s₂ rows inv ⟨h₁, unsent₁⟩ answers he
  have wf := inv.wf
  have grows := touch_grows wf (exec_touch he)
  obtain ⟨rfl, act, sel, rfl⟩ := selectPending_ok he
  have owns := (h₁.now act).select sel
  have act₂ : ((s₁.putOutbox (s₁.outbox.write t (s₁.picks t rows) id)).setTx t
      { s₁.tx t with selected := rows.map (·.id) }).active t = true :=
    active_iff.mpr (by rw [setTx_self]; exact active_iff.mp act)
  cases rows with
  | nil =>
    refine done (.of act₂ ⟨[], owns, .inr fun c hc => ?_⟩)
    exact absurd (owns.held c hc) List.not_mem_nil
  | cons row rest =>
    have asked : Asked R t (row :: rest) _ := ⟨s₁, _, wf, grows, answers, sel⟩
    refine leaves_bind (publish_safe (by simp) ⟨.of act₂ owns, asked, unsent₁⟩) ?_
    intro r s₃ ⟨owns₃, result⟩
    cases r with
    | error x =>
      refine leaves_bind (markFailed_safe result (fun _ h => h) owns₃) fun _ s₄ h₄ => ?_
      exact ⟨fun act => ⟨_, h₄.now act, .inl result⟩, h₄.still⟩
    | ok u =>
      have kept : Steady R partition t fun s => ∀ r ∈ row :: rest, relayMessage r ∈ s.kafka :=
        grows_steady fun _ _ h g r hr => g.kafka.subset (h r hr)
      refine ask_bind ⟨owns₃, result⟩ ((during_steady owns_stable).and kept) ?_ ?_
      · intro s _ h act
        exact .published (row :: rest) (h.1.now act) rfl rfl h.2
      · intro s₄ c s₅ _ inv ⟨h₄, _⟩ _ he
        obtain ⟨act, -, rfl⟩ := updateOutbox_ok he
        have o := h₄.now act
        exact done (.of act ⟨row :: rest, o.write inv.wf fun _ h => h, .inr o.mark⟩)

theorem drainOnce_safe {config : OutboxConfig} {replica : Replica}
    (unsent : ∀ b ∈ s.batches, b.1 ≠ t) :
    (discipline R partition).Safe t (drainOnce config replica) (fun _ _ => True) s := by
  unfold drainOnce
  apply Logic.Safe.bind
  refine ask_safe unsent unsent_steady (fun _ _ _ => by trivial) ?_
  intro s₁ c s₂ r _ h₁ _ he
  have unsent₂ : ∀ b ∈ s₂.batches, b.1 ≠ t := by
    cases c <;> simp only [exec, Option.some.injEq, Prod.mk.injEq, reduceCtorEq] at he
    rw [← he.1]
    exact h₁
  cases r with
  | error x => trivial
  | ok running =>
    cases running with
    | true => trivial
    | false =>
      apply Logic.Safe.ensure
      refine (transaction_safe (J := fun s => ∀ b ∈ s.batches, b.1 ≠ t) (Q := fun _ _ => True)
        unsent₂ unsent_steady ?_ (fun _ h => drainBatch_safe h) (fun _ => drained_stable) ?_
        (fun _ _ _ _ _ => trivial)).mono ?_
      · intro s c s' h he
        obtain ⟨-, rfl⟩ := begin_ok he
        exact h
      · rintro _ s ⟨rows, owns, done⟩
        exact .drain rows owns done
      · intro r s _
        refine neutral_end (by simp [Neutral]) fun r s => ?_
        cases r <;> trivial

/-- All four operations keep to the discipline. -/
theorem api_verified (R : Regime) (partition : String → String → Nat) :
    Logic.Verified (discipline R partition) R.Ok (fun _ _ _ _ => True) where
  allowed _ _ _ j e k ok live := ok j e k live
  code p t j ok _ _ fresh := by
    have ret : ∀ {α : Type} {q : Service α} {f : α → Response},
        (discipline R partition).Safe t q (fun _ _ => True) p.shared →
        (discipline R partition).Safe t (do pure (f (← q))) (fun _ _ => True) p.shared := by
      intro α q f h
      apply Logic.Safe.bind
      exact h.mono fun r s _ => by cases r <;> trivial
    cases j with
    | create dto =>
      refine ret (ask_safe trivial true_steady (fun _ _ _ => ⟨rfl, dto.totalSeats_min⟩) ?_)
      exact fun _ _ _ _ _ _ _ _ => trivial
    | book config eventId dto context => exact ret (book_safe ok)
    | integrity eventId => exact ret (neutral_end integrity_neutral fun _ _ => trivial)
    | drainOnce config replica => exact ret (drainOnce_safe fresh.unsent)
  finish _ _ _ _ inv _ := ⟨inv, fun _ _ => (discipline R partition).refl _ _⟩
  ext p x s' ok inv h := by
    obtain ⟨bookings, outbox⟩ := ext_tables h
    constructor
    · exact consistent_of_eq inv (ext_wf inv.wf h) bookings outbox
    · intro t
      have frame := ext_frame h t
      refine ⟨frame, fun n => ?_, extends_of_eq frame.grows outbox⟩
      cases x with
      | tick d => cases Option.some.inj h; rfl
      | abortTx t' => exact absurd ok n

/- The state after the migrations: empty tables, and no call has begun. -/
def migrated : ApiPool := Pool.initial {}

/-- A replayed run, in a regime that restricts the calls only. -/
theorem any_run {allowed : Job → Prop} {as : List (Act Job Choice Ext)} {p : ApiPool}
    (h : (api partition).run migrated as = some p) (ok : ∀ t j, .start t j ∈ as → allowed j) :
    (api partition).Reach (Regime.any allowed).Ok migrated p := by
  refine .of_run h fun a ha q => ?_
  cases a with
  | start t j => exact ok t j ha
  | step t c => exact fun _ _ _ _ => trivial
  | kill t => trivial
  | env x => cases x <;> trivial

theorem empty_consistent : Consistent {} := ⟨empty_wf, List.Sublist.refl _⟩

theorem migrated_sound {R : Regime} :
    Logic.Sound (discipline R partition) (fun _ _ _ _ => True) migrated :=
  Logic.initial_sound (L := discipline R partition) empty_consistent fun _ => ⟨rfl, fun _ h => nomatch h⟩

theorem api_sound {R : Regime} {p : ApiPool} (run : (api partition).Reach R.Ok migrated p) :
    Logic.Sound (discipline R partition) (fun _ _ _ _ => True) p :=
  Logic.reach_sound (api_verified R partition) migrated_sound run

/-- The rule for the results: a property of the tables that every answer preserves, given what
is known of the statement, holds from any reachable state on. -/
theorem api_invariant {R : Regime} {J : Store → Prop} {p q : ApiPool}
    (past : (api partition).Reach R.Ok migrated p) (run : (api partition).Reach R.Ok p q)
    (start : J p.shared)
    (step : ∀ t s e c s' r, Consistent s → At R t e s → R.answers t s e c → J s →
      exec partition t s e c = some (s', r) → J s')
    (tick : ∀ s d, J s → J { s with clock := s.clock + d })
    (abort : R.crashes → ∀ t s, WF s → J s → J (s.abort t)) : J q.shared := by
  refine Logic.reach_invariant (api_verified R partition) (api_sound past) run start
    (fun t s e c s' r inv here ok h he _ => step t s e c s' r inv here ok h he)
    (fun _ _ _ _ _ _ h => h) ?_
  intro q x s' ok inv h hx
  cases x with
  | tick d => cases Option.some.inj hx; exact tick _ d h
  | abortTx t => cases Option.some.inj hx; exact abort ok t _ inv.wf h

/-- What a run never takes back. -/
theorem api_grows {R : Regime} {p q : ApiPool} (past : (api partition).Reach R.Ok migrated p)
    (run : (api partition).Reach R.Ok p q) : Grows p.shared q.shared := by
  refine api_invariant past run (.refl p.shared) ?_ ?_ ?_
  · exact fun t s e c s' r inv _ _ h he => h.trans (touch_grows inv.wf (exec_touch he))
  · exact fun s d h => h.trans { Grows.refl s with }
  · exact fun _ t s _ h => h.trans (grows_abort t s)

end Overbook
