import Overbook.Outbox.Published

/-! Replicas share the outbox without coordination. The row locks that a drain holds across its
publish keep every row out of every other batch. -/
namespace Overbook

open Async Prog ReadCommitted Kafka Store

def smooth : Regime := ⟨fun _ => True, fun _ _ e c => ¬ Failing e c, False⟩

theorem smooth_never_fails : ¬ smooth.Fails := fun ⟨_, _, _, _, answers, fails⟩ => answers fails

/-- The batches that contain the message of a row, over the whole run. -/
def calls (r : OutboxRow) (s : Store) : Nat :=
  s.batches.countP fun b => b.2.contains (relayMessage r)

/-- Every row is in one batch at most, and until its mark is committed its sender holds it. -/
structure OneBatch (s : Store) : Prop where
  once : ∀ c ∈ s.outbox, calls c.committed s ≤ 1
  held : ∀ c ∈ s.outbox, ∀ b ∈ s.batches, relayMessage c.committed ∈ b.2 →
    c.committed.status = .published ∨ c.heldBy b.1 = true
  source : ∀ b ∈ s.batches, ∀ m ∈ b.2, m.headers.attempts = none ∨
    ∃ c ∈ s.outbox, m = relayMessage c.committed
  handed : ∀ m ∈ s.kafka, ∃ b ∈ s.batches, m ∈ b.2

theorem calls_congr {r r' : OutboxRow} {s s' : Store} (same : relayMessage r = relayMessage r')
    (batches : s'.batches = s.batches) : calls r' s' = calls r s := by
  rw [calls, calls, batches, same]

theorem calls_pos {r : OutboxRow} {s : Store} {b : Tid × List BookingMessage}
    (hb : b ∈ s.batches) (hm : relayMessage r ∈ b.2) : 0 < calls r s :=
  List.countP_pos_iff.mpr ⟨b, hb, by simpa using hm⟩

theorem calls_zero {r : OutboxRow} {s : Store}
    (none : ∀ b ∈ s.batches, relayMessage r ∉ b.2) : calls r s = 0 :=
  List.countP_eq_zero.mpr fun b hb => by simpa using none b hb

/-- Steps that rewrite cells in place: messages stay, and a sender keeps what it has sent. -/
theorem OneBatch.map {s s' : Store} {f : Cell OutboxRow → Cell OutboxRow} (h : OneBatch s)
    (outbox : s'.outbox = s.outbox.map f) (batches : s'.batches = s.batches)
    (kafka : s'.kafka = s.kafka)
    (message : ∀ c ∈ s.outbox, relayMessage (f c).committed = relayMessage c.committed)
    (keep : ∀ c ∈ s.outbox, ∀ b ∈ s.batches, relayMessage c.committed ∈ b.2 →
      c.committed.status = .published ∨ c.heldBy b.1 = true →
      (f c).committed.status = .published ∨ (f c).heldBy b.1 = true) : OneBatch s' := by
  refine ⟨fun d hd => ?_, fun d hd b hb hm => ?_, fun b hb m hm => ?_, fun m hm => ?_⟩
  · rw [outbox] at hd
    obtain ⟨c, hc, rfl⟩ := List.mem_map.mp hd
    rw [calls_congr (message c hc).symm batches]
    exact h.once c hc
  · rw [outbox] at hd
    obtain ⟨c, hc, rfl⟩ := List.mem_map.mp hd
    rw [batches] at hb
    rw [message c hc] at hm
    exact keep c hc b hb hm (h.held c hc b hb hm)
  · rw [batches] at hb
    refine (h.source b hb m hm).imp_right fun ⟨c, hc, hm⟩ => ?_
    refine ⟨f c, ?_, by rw [message c hc, hm]⟩
    rw [outbox]
    exact List.mem_map_of_mem hc
  · rw [kafka] at hm
    rw [batches]
    exact h.handed m hm

theorem OneBatch.same {s s' : Store} (h : OneBatch s) (outbox : s'.outbox = s.outbox)
    (batches : s'.batches = s.batches) (kafka : s'.kafka = s.kafka) : OneBatch s' :=
  h.map (f := id) (by rw [outbox, List.map_id]) batches kafka (fun _ _ => rfl) fun _ _ _ _ _ h => h

/-- Locking rows that nobody else holds takes none away from its sender. -/
theorem OneBatch.write {s s' : Store} {t : Tid} {p : Cell OutboxRow → Bool}
    {f : OutboxRow → OutboxRow} (h : OneBatch s) (free : s.outbox.freeFor t p = true)
    (outbox : s'.outbox = s.outbox.write t p f) (batches : s'.batches = s.batches)
    (kafka : s'.kafka = s.kafka) : OneBatch s' := by
  refine h.map outbox batches kafka (fun c _ => ?_) fun c hc b hb hm old => ?_
  · split <;> rfl
  · split
    · rename_i hp
      refine old.imp_right fun held => ?_
      have eq : b.1 = t := by
        by_contra ne
        have away := Cell.not_heldBy_of_free ne (Rows.free_of_freeFor free hc hp)
        rw [held] at away
        cases away
      simp [eq]
    · exact old

/-- The COMMIT publishes the marks of the rows it releases; the rows it adds are new. -/
theorem OneBatch.commit {s : Store} {t : Tid} (wf : WF s) (h : OneBatch s)
    (marked : ∀ c ∈ s.outbox.held t, (c.view t).status = .published) :
    OneBatch (s.commitTx t) := by
  have message : ∀ c ∈ s.outbox,
      relayMessage (c.commit t).committed = relayMessage c.committed := by
    intro c hc
    rw [Cell.commit_committed]
    exact relayMessage_envelope (wf.envelope c hc t)
  have old : OneBatch { s with outbox := s.outbox.commit t } := by
    refine h.map (f := (·.commit t)) rfl rfl rfl message fun c hc b hb hm was => ?_
    cases held : c.heldBy t with
    | true =>
      rw [Cell.commit_committed]
      exact .inl (marked c (Rows.mem_held.mpr ⟨hc, held⟩))
    | false =>
      have eq : c.commit t = c := by simp [Cell.commit, held]
      rw [eq]
      exact was
  have new : ∀ r ∈ (s.tx t).outbox, ∀ b ∈ s.batches, relayMessage r ∉ b.2 := by
    intro r hr b hb hm
    rcases h.source b hb _ hm with direct | ⟨c, hc, same⟩
    · cases direct
    · have ids : r.id = c.committed.id :=
        Option.some.inj (congrArg (·.headers.messageId) same)
      refine wf.outbox.apart t r.id (List.mem_map_of_mem hr) ?_
      rw [ids]
      exact List.mem_map_of_mem (List.mem_map_of_mem hc)
  refine ⟨fun c hc => ?_, fun c hc b hb hm => ?_, fun b hb m hm => ?_, h.handed⟩
  · rcases List.mem_append.mp hc with hc | hc
    · exact old.once c hc
    · obtain ⟨r, hr, rfl⟩ := List.mem_map.mp hc
      have zero : calls r (s.commitTx t) = 0 := calls_zero (new r hr)
      exact zero.le.trans (Nat.zero_le 1)
  · rcases List.mem_append.mp hc with hc | hc
    · exact old.held c hc b hb hm
    · obtain ⟨r, hr, rfl⟩ := List.mem_map.mp hc
      exact absurd hm (new r hr b hb)
  · refine (old.source b hb m hm).imp_right ?_
    rintro ⟨c, hc, same⟩
    exact ⟨c, List.mem_append_left _ hc, same⟩

theorem direct_ne_relay {config : AppConfiguration} {b : BookingRow} {eventName : String}
    {traceId : Option String} {r : OutboxRow} :
    relayMessage r ≠ directMessage config b eventName traceId := by
  intro h
  have attempts := congrArg (·.headers.attempts) h
  cases attempts

/-- A batch at the producer: its rows are held, unmarked, and in no batch so far. -/
theorem OneBatch.send {s : Store} {t : Tid} {batch : List (TopicMessages BookingConfirmedPayload)}
    {accepted : List BookingMessage} (wf : WF s) (h : OneBatch s)
    (sending : Sending smooth t batch s) (sub : accepted.Sublist (sent batch)) :
    OneBatch { s with kafka := s.kafka ++ accepted, batches := s.batches ++ [(t, sent batch)] } := by
  have add : ∀ c ∈ s.outbox, relayMessage c.committed ∈ sent batch →
      c.heldBy t = true ∧ calls c.committed s = 0 := by
    intro c hc hm
    cases sending with
    | relay rows hbatch asked owns unsent =>
      rw [hbatch, mem_sent_byTopic] at hm
      obtain ⟨r, hr, same⟩ := List.mem_map.mp hm
      have own := owns.now (owns.still id)
      have ids : c.committed.id = r.id :=
        (Option.some.inj (congrArg (·.headers.messageId) same)).symm
      have mine := row_of_id wf own hc (by rw [ids]; exact List.mem_map_of_mem hr)
      obtain ⟨d, hd, eq⟩ := own.picked _ mine
      obtain ⟨hd, held⟩ := Rows.mem_held.mp hd
      have cell : d = c := by
        have nodup := wf.outbox.nodup
        simp only [Rows.committed, List.map_map] at nodup
        exact List.inj_on_of_nodup_map nodup hd hc (by simp [eq])
      rw [cell] at held
      refine ⟨held, calls_zero fun b hb hm => ?_⟩
      rcases h.held c hc b hb hm with published | other
      · rw [own.pending _ mine] at published
        cases published
      · exact unsent b hb (Cell.heldBy_unique other held)
    | direct config eventId dto context b eventName allowed on known _ hbatch =>
      rw [hbatch, mem_sent_byTopic, List.mem_singleton] at hm
      exact absurd hm direct_ne_relay
  refine ⟨fun c hc => ?_, fun c hc b hb hm => ?_, fun b hb m hm => ?_, fun m hm => ?_⟩
  · simp only [calls, List.countP_append, List.countP_cons, List.countP_nil]
    have before := h.once c hc
    simp only [calls] at before
    split
    · rename_i hm
      have zero := (add c hc (by simpa using hm)).2
      simp only [calls] at zero
      omega
    · omega
  · rcases List.mem_append.mp hb with hb | hb
    · exact h.held c hc b hb hm
    · rw [List.mem_singleton.mp hb] at hm ⊢
      exact .inr (add c hc hm).1
  · rcases List.mem_append.mp hb with hb | hb
    · exact h.source b hb m hm
    · rw [List.mem_singleton.mp hb] at hm
      cases sending with
      | relay rows hbatch asked owns unsent =>
        rw [hbatch, mem_sent_byTopic] at hm
        obtain ⟨r, hr, rfl⟩ := List.mem_map.mp hm
        obtain ⟨d, hd, rfl⟩ := (owns.now (owns.still id)).picked r hr
        exact .inr ⟨d, (Rows.mem_held.mp hd).1, rfl⟩
      | direct config eventId dto context b eventName allowed on known _ hbatch =>
        rw [hbatch, mem_sent_byTopic, List.mem_singleton] at hm
        rw [hm]
        exact .inl rfl
  · rcases List.mem_append.mp hm with hm | hm
    · obtain ⟨b, hb, hm⟩ := h.handed m hm
      exact ⟨b, List.mem_append_left _ hb, hm⟩
    · exact ⟨_, List.mem_append_right _ (List.mem_singleton_self _), sub.subset hm⟩

theorem rollback_none {t : Tid} {s : Store} (none : s.outbox.held t = []) :
    s.outbox.rollback t = s.outbox := by
  rw [Rows.rollback]
  refine (List.map_congr_left fun c hc => ?_).trans (List.map_id _)
  have free : c.heldBy t = false := by
    by_contra held
    have mem := Rows.mem_held.mpr ⟨hc, by simpa using held⟩
    rw [none] at mem
    cases mem
  simp [Cell.rollback, free]

theorem oneBatch_step {s s' : Store} {t : Tid} {e : Effect} {c : Choice} (wf : WF s)
    (here : At smooth t e s) (answers : smooth.answers t s e c) (h : OneBatch s)
    (touch : Touch t s e c s') : OneBatch s' := by
  cases touch with
  | rest s' _ _ outbox _ _ kafka batches => exact h.same outbox batches kafka
  | committed act =>
    refine h.commit wf ?_
    cases here act with
    | book config eventId dto context b outbox allowed booking owns =>
      rw [owns.none_held]
      exact fun _ hc => nomatch hc
    | drain rows owns done => exact done.resolve_left smooth_never_fails
  | aborted fails => exact absurd fails answers
  | rolledBack =>
    -- only calls that hold no outbox row roll back in such runs
    have none := Or.resolve_left here smooth_never_fails
    unfold Store.rollbackTx Store.abort
    split
    · rename_i act
      exact h.same (rollback_none (none act)) rfl rfl
    · exact h.same rfl rfl rfl
  | selected limit rows => exact h.write (picks_free t s rows) rfl rfl rfl
  | updated ids patch _ free => exact h.write free rfl rfl rfl
  | sent batch accepted sub => exact h.send wf here sub
  | _ => exact h.same rfl rfl rfl

/-- Two transactions never hold one row, whatever happens. -/
theorem selected_apart {s : Store} (wf : WF s) {t t' : Tid} (ne : t ≠ t') :
    ∀ x ∈ (s.tx t).selected, x ∉ (s.tx t').selected := by
  intro x hx hx'
  obtain ⟨c, hc, id, held⟩ := wf.selected t x hx
  obtain ⟨c', hc', id', held'⟩ := wf.selected t' x hx'
  have nodup := wf.outbox.nodup
  simp only [Rows.committed, List.map_map] at nodup
  have same : c = c' := List.inj_on_of_nodup_map nodup hc hc' (by simp [id, id'])
  rw [← same] at held'
  exact ne (Cell.heldBy_unique held held')

/-- Without failures, a row is in one batch at most and in exactly one once it is published;
and two open drains share no row. -/
theorem each_row_published_once (partition : String → String → Nat) (p : ApiPool)
    (run : (api partition).Reach smooth.Ok migrated p) :
    (∀ r ∈ p.shared.outbox.committed, calls r p.shared ≤ 1 ∧
      (r.status = .published → calls r p.shared = 1)) ∧
    ∀ t t', t ≠ t' → ∀ x ∈ (p.shared.tx t).selected, x ∉ (p.shared.tx t').selected := by
  have one : OneBatch p.shared := by
    refine api_invariant .refl run ?_ ?_ (fun _ _ h => h.same rfl rfl rfl) ?_
    · exact ⟨fun _ h => (nomatch h), fun _ h => (nomatch h), fun _ h => (nomatch h),
        fun _ h => nomatch h⟩
    · exact fun t s e c s' r inv here answers h he => oneBatch_step inv.wf here answers h (exec_touch he)
    · exact fun crashes => absurd crashes id
  refine ⟨fun r hr => ?_, fun t t' ne => selected_apart (api_sound run).inv.wf ne⟩
  obtain ⟨c, hc, rfl⟩ := List.mem_map.mp hr
  refine ⟨one.once c hc, fun published => ?_⟩
  obtain ⟨b, hb, hm⟩ := one.handed _ ((backed run).committed hc published)
  have pos := calls_pos hb hm
  have le := one.once c hc
  omega

def smoothAct : Act Job Choice Ext → Bool
  | .start .. => true
  | .step _ .fail => false
  | .step _ .lostReply => false
  | .step _ (.refused _) => false
  | .step .. => true
  | .kill _ => false
  | .env (.tick _) => true
  | .env (.abortTx _) => false

theorem smooth_run {partition : String → String → Nat} {as : List (Act Job Choice Ext)}
    {p : ApiPool} (h : (api partition).run migrated as = some p)
    (all : as.all smoothAct = true) : (api partition).Reach smooth.Ok migrated p := by
  refine .of_run h fun a ha q => ?_
  have ok := List.all_eq_true.mp all a ha
  cases a with
  | start t j => trivial
  | step t c =>
    intro j e k _ fails
    cases c <;> first | exact Bool.false_ne_true ok | (cases e <;> exact fails)
  | kill t => cases ok
  | env x => cases x <;> trivial

theorem each_row_published_once_two : ∃ p : ApiPool,
    p.shared.outbox.committed.map (·.status) = [.published, .published] ∧
    (∀ r ∈ p.shared.outbox.committed, calls r p.shared ≤ 1 ∧
      (r.status = .published → calls r p.shared = 1)) ∧
    ∀ t t', t ≠ t' → ∀ x ∈ (p.shared.tx t).selected, x ∉ (p.shared.tx t').selected := by
  have replay : (((api fun _ _ => 0).run migrated overlappingDrains).map fun p =>
      p.shared.outbox.committed.map (·.status)) = some [.published, .published] := by decide +kernel
  obtain ⟨p, hp, published⟩ := Option.map_eq_some_iff.mp replay
  refine ⟨p, published, each_row_published_once (fun _ _ => 0) p (smooth_run hp ?_)⟩
  decide

end Overbook
