import Overbook.Bookings.Seats

/-! A row is marked published only after the broker has its message. The publish, the mark and
the COMMIT can each fail; the order of the three is kept in every state in between. -/
namespace Overbook

open Async Prog ReadCommitted Kafka Store

/- Any calls, any answers, any crashes. -/
def everything : Regime := .any fun _ => True

theorem relayMessage_envelope {r r' : OutboxRow} (h : r.envelope = r'.envelope) :
    relayMessage r = relayMessage r' := by
  change relayMessage r.envelope = relayMessage r'.envelope
  rw [h]

/-- Marks are backed by accepted messages, also in working copies nobody else can see yet, and
only pending rows are ever locked. -/
structure Backed (s : Store) : Prop where
  sent : ∀ c ∈ s.outbox, ∀ t, (c.view t).status = .published → relayMessage c.committed ∈ s.kafka
  held : ∀ c ∈ s.outbox, ∀ t, c.heldBy t = true → c.committed.status = .pending

theorem Backed.committed {s : Store} (h : Backed s) {c : Cell OutboxRow} (hc : c ∈ s.outbox)
    (published : c.committed.status = .published) : relayMessage c.committed ∈ s.kafka := by
  have free : ∀ t, c.heldBy t = false := by
    intro t
    by_contra held
    have pending := h.held c hc t (by simpa using held)
    rw [published] at pending
    cases pending
  exact h.sent c hc 0 ((congrArg _ (Cell.view_of_not_heldBy (free 0))).trans published)

theorem Backed.same {s s' : Store} (h : Backed s) (outbox : s'.outbox = s.outbox)
    (kafka : s.kafka <+: s'.kafka) : Backed s' := by
  refine ⟨fun c hc t pub => ?_, fun c hc => ?_⟩
  · rw [outbox] at hc
    exact kafka.subset (h.sent c hc t pub)
  · rw [outbox] at hc
    exact h.held c hc

theorem Backed.release {s : Store} {t : Tid} (h : Backed s) :
    ∀ c ∈ s.outbox.rollback t, (∀ t', (c.view t').status = .published →
      relayMessage c.committed ∈ s.kafka) ∧
      ∀ t', c.heldBy t' = true → c.committed.status = .pending := by
  intro c hc
  obtain ⟨d, hd, rfl⟩ := List.mem_map.mp hc
  cases held : d.heldBy t with
  | true =>
    have pending := h.held d hd t held
    have eq : d.rollback t = ⟨d.committed, none⟩ := by simp [Cell.rollback, held]
    rw [eq]
    refine ⟨fun t' pub => ?_, fun _ _ => pending⟩
    have pub : d.committed.status = .published := pub
    rw [pending] at pub
    cases pub
  | false =>
    have eq : d.rollback t = d := by simp [Cell.rollback, held]
    rw [eq]
    exact ⟨h.sent d hd, h.held d hd⟩

theorem Backed.abort {s : Store} (h : Backed s) (t : Tid) : Backed (s.abort t) := by
  unfold Store.abort
  split
  · exact ⟨fun c hc => (h.release c hc).1, fun c hc => (h.release c hc).2⟩
  · exact h

/-- Rows that a statement of `t` locks: pending ones, and marked only when they are sent. -/
theorem Backed.write {s : Store} {t : Tid} {p : Cell OutboxRow → Bool}
    {f : OutboxRow → OutboxRow} (h : Backed s)
    (pending : ∀ c ∈ s.outbox, p c = true → c.committed.status = .pending)
    (sent : ∀ c ∈ s.outbox, p c = true → (f (c.view t)).status = .published →
      relayMessage c.committed ∈ s.kafka) : Backed (s.putOutbox (s.outbox.write t p f)) := by
  refine ⟨fun c hc t' pub => ?_, fun c hc t' held => ?_⟩
  · obtain ⟨d, hd, rfl⟩ := List.mem_map.mp hc
    split at pub
    · rename_i hp
      simp only [hp, if_true, Cell.write_committed]
      by_cases same : t' = t
      · subst same
        rw [Cell.write_view] at pub
        exact sent d hd hp pub
      · have away : (d.write t (f (d.view t))).heldBy t' = false := by simp [Ne.symm same]
        rw [Cell.view_of_not_heldBy away, Cell.write_committed] at pub
        exact h.committed hd pub
    · rename_i hp
      simp only [hp]
      exact h.sent d hd t' pub
  · obtain ⟨d, hd, rfl⟩ := List.mem_map.mp hc
    split at held
    · rename_i hp
      simp only [hp, if_true, Cell.write_committed]
      exact pending d hd hp
    · rename_i hp
      simp only [hp]
      exact h.held d hd t' held

/-- A COMMIT makes working copies public; the rows it adds are pending. -/
theorem Backed.commit {s : Store} {t : Tid} (wf : WF s) (h : Backed s)
    (added : ∀ r ∈ (s.tx t).outbox, r.status = .pending) : Backed (s.commitTx t) := by
  have cell : ∀ c ∈ (s.commitTx t).outbox,
      (∀ t', (c.view t').status = .published → relayMessage c.committed ∈ s.kafka) ∧
      ∀ t', c.heldBy t' = true → c.committed.status = .pending := by
    intro c hc
    rcases List.mem_append.mp hc with hc | hc
    · obtain ⟨d, hd, rfl⟩ := List.mem_map.mp hc
      cases held : d.heldBy t with
      | true =>
        have eq : d.commit t = ⟨d.view t, none⟩ := by simp [Cell.commit, held]
        rw [eq]
        refine ⟨fun t' pub => ?_, fun _ held => by cases held⟩
        rw [relayMessage_envelope (wf.envelope d hd t)]
        exact h.sent d hd t pub
      | false =>
        have eq : d.commit t = d := by simp [Cell.commit, held]
        rw [eq]
        exact ⟨h.sent d hd, h.held d hd⟩
    · obtain ⟨r, hr, rfl⟩ := List.mem_map.mp hc
      have pending := added r hr
      refine ⟨fun t' pub => ?_, fun _ _ => pending⟩
      have pub : r.status = .published := pub
      rw [pending] at pub
      cases pub
  exact ⟨fun c hc => (cell c hc).1, fun c hc => (cell c hc).2⟩

variable {R : Regime} {partition : String → String → Nat} {t : Tid} {s s' : Store} {e : Effect}
  {c : Choice}

theorem ready_added (h : Ready R t s) : ∀ r ∈ (s.tx t).outbox, r.status = .pending := by
  cases h with
  | book config eventId dto context b outbox allowed booking owns seats on off =>
    rw [owns.outbox]
    cases enqueues : config.outbox.enqueues with
    | true =>
      obtain ⟨m, rfl, row⟩ := on enqueues
      intro r hr
      rw [List.mem_singleton.mp hr]
      exact row.pending
    | false => rw [off enqueues]; exact fun _ hr => nomatch hr
  | drain rows owns => rw [owns.outbox]; exact fun _ hr => nomatch hr

theorem marking_backed {ids : List Uuid} {patch : OutboxPatch} (wf : WF s) (h : Backed s)
    (marking : Marking R t ids patch s) :
    Backed (s.putOutbox (s.outbox.write t (among ids) (patch.apply (s.now t)))) := by
  cases marking with
  | published rows owns hids hpatch sent =>
    have mine : ∀ c ∈ s.outbox, among ids c = true → c.committed ∈ rows := by
      intro c hc hp
      refine row_of_id wf owns hc ?_
      simpa [among, hids] using hp
    refine h.write (fun c hc hp => owns.pending _ (mine c hc hp)) fun c hc hp _ => ?_
    exact sent _ (mine c hc hp)
  | failed rows row maxAttempts error now owns hrow hids hpatch =>
    have mine : ∀ c ∈ s.outbox, among ids c = true → c.committed ∈ rows := by
      intro c hc hp
      refine row_of_id wf owns hc (List.mem_map.mpr ⟨row, hrow, ?_⟩)
      simpa [among, hids, eq_comm] using hp
    refine h.write (fun c hc hp => owns.pending _ (mine c hc hp)) fun c hc hp pub => ?_
    -- a failed publish marks rows as pending or failed
    simp only [hpatch, OutboxPatch.apply, failedPatch, Option.getD_some] at pub
    split at pub <;> cases pub

theorem backed_step (wf : WF s) (here : At R t e s) (h : Backed s) (touch : Touch t s e c s') :
    Backed s' := by
  cases touch with
  | rest s' _ _ outbox _ _ kafka => exact h.same outbox (prefix_of_eq kafka)
  | committed act => exact h.commit wf (ready_added (here act))
  | aborted => exact h.abort t
  | rolledBack => exact (h.abort t).same rfl (List.prefix_refl _)
  | selected limit rows act sel =>
    refine (h.write (t := t) (p := s.picks t rows) (f := id) (fun c _ hp => ?_) ?_).same rfl
      (List.prefix_refl _)
    · simp only [picks, eligible, Bool.and_eq_true, beq_iff_eq] at hp
      exact hp.2.1.1
    · exact fun c hc _ pub => h.sent c hc t pub
  | updated ids patch act => exact marking_backed wf h (here act)
  | sent batch accepted => exact h.same rfl (List.prefix_append ..)
  | _ => exact h.same rfl (List.prefix_refl _)

theorem backed_run {p q : ApiPool} (past : (api partition).Reach R.Ok migrated p)
    (run : (api partition).Reach R.Ok p q) (start : Backed p.shared) : Backed q.shared := by
  refine api_invariant past run start ?_ (fun _ _ h => h.same rfl (List.prefix_refl _)) ?_
  · exact fun t s e c s' r inv here _ h he => backed_step inv.wf here h (exec_touch he)
  · exact fun _ t s _ h => h.abort t

theorem backed {p : ApiPool} (past : (api partition).Reach R.Ok migrated p) : Backed p.shared :=
  backed_run .refl past ⟨fun _ h => (nomatch h), fun _ h => nomatch h⟩

/-- What becomes of the rows of an earlier state: each keeps its place and its envelope, and
one that is no longer pending keeps everything. -/
def Later (s s' : Store) : Prop := ∀ (i : Nat) (r : OutboxRow), s.outbox.committed[i]? = some r →
  ∃ r', s'.outbox.committed[i]? = some r' ∧ r'.envelope = r.envelope ∧
    (r.status ≠ .pending → r' = r)

theorem Later.refl (s : Store) : Later s s := fun _ r h => ⟨r, h, rfl, fun _ => rfl⟩

theorem Later.trans {s s' s'' : Store} (h : Later s s') (h' : Later s' s'') : Later s s'' := by
  intro i r hr
  obtain ⟨r', hr', env, keep⟩ := h i r hr
  obtain ⟨r'', hr'', env', keep'⟩ := h' i r' hr'
  refine ⟨r'', hr'', env'.trans env, fun settled => ?_⟩
  have same := keep settled
  rw [keep' (by rw [same]; exact settled), same]

theorem later_of_eq (h : s'.outbox.committed = s.outbox.committed) : Later s s' :=
  fun i r hr => ⟨r, by rw [h]; exact hr, rfl, fun _ => rfl⟩

theorem commit_later (wf : WF s) (h : Backed s) : Later s (s.commitTx t) := by
  intro i r hr
  have rows : (s.commitTx t).outbox.committed =
      s.outbox.map (·.view t) ++ (s.tx t).outbox := by
    rw [← Rows.committed_commit]
    exact Rows.committed_insert ..
  have hi : i < s.outbox.length := by
    have lt := (List.getElem?_eq_some_iff.mp hr).1
    simpa [Rows.committed] using lt
  have cell : s.outbox[i].committed = r := by
    have eq := (List.getElem?_eq_some_iff.mp hr).2
    simpa [Rows.committed] using eq
  have mem : s.outbox[i] ∈ s.outbox := List.getElem_mem hi
  refine ⟨s.outbox[i].view t, ?_, ?_, fun settled => ?_⟩
  · rw [rows, List.getElem?_append_left (by simpa using hi)]
    simp [hi]
  · rw [wf.envelope _ mem t, cell]
  · have free : s.outbox[i].heldBy t = false := by
      by_contra held
      exact settled (cell ▸ h.held _ mem t (by simpa using held))
    rw [Cell.view_of_not_heldBy free, cell]

/-- The mark follows the message, rows are never deleted, and a settled row never changes. -/
theorem published_after_accepted (partition : String → String → Nat) (p q : ApiPool)
    (past : (api partition).Reach everything.Ok migrated p)
    (run : (api partition).Reach everything.Ok p q) :
    (∀ c ∈ p.shared.outbox,
      (c.committed.status = .published ∨ ∃ t, (c.view t).status = .published) →
      ∃ m ∈ p.shared.kafka, m.headers.messageId = some c.committed.id ∧
        m.key = c.committed.messageKey ∧ m.topic = c.committed.topic ∧
        m.value = c.committed.payload) ∧
    ∀ (i : Nat) (r : OutboxRow), p.shared.outbox.committed[i]? = some r →
      ∃ r', q.shared.outbox.committed[i]? = some r' ∧ r'.id = r.id ∧
        (r.status = .published ∨ r.status = .failed → r' = r) := by
  have now := backed past
  refine ⟨fun c hc marked => ⟨relayMessage c.committed, ?_, rfl, rfl, rfl, rfl⟩, fun i r hr => ?_⟩
  · rcases marked with published | ⟨t, published⟩
    · exact now.committed hc published
    · exact now.sent c hc t published
  · have later : Backed q.shared ∧ Later p.shared q.shared := by
      refine api_invariant (J := fun s => Backed s ∧ Later p.shared s) past run
        ⟨now, .refl _⟩ ?_ (fun _ _ h => ⟨h.1.same rfl (List.prefix_refl _), h.2⟩) ?_
      · intro t s e c s' r inv here _ h he
        have touch := exec_touch he
        refine ⟨backed_step inv.wf here h.1 touch, h.2.trans ?_⟩
        obtain ⟨-, act, rfl⟩ | ⟨-, same⟩ := touch_commits touch
        · exact commit_later inv.wf h.1
        · exact later_of_eq same
      · exact fun _ t s _ h => ⟨h.1.abort t, h.2.trans (later_of_eq (abort_tables t s).2)⟩
    obtain ⟨r', hr', env, keep⟩ := later.2 i r hr
    refine ⟨r', hr', envelope_id env, fun settled => keep fun pending => ?_⟩
    rcases settled with h | h <;> rw [h] at pending <;> cases pending

def oneRow : OutboxRow :=
  ⟨"m", "booking", "b", "booking.confirmed", "booking.events", "e",
    ⟨"b", "e", "user-1", 1, "show", 0, none⟩, .pending, 0, 0, none, none, 0⟩

def oneDrain : List (Act Job Choice Ext) :=
  oneBooking ++ [.start 2 (.drainOnce {} 0), .step 2 .ok, .step 2 .ok, .step 2 (.rows [oneRow]),
    .step 2 .ok, .step 2 .ok, .step 2 .ok, .step 2 .ok, .step 2 .ok]

/- The other row that `overlappingBookings` leaves. -/
def otherRow : OutboxRow :=
  ⟨"n", "booking", "c", "booking.confirmed", "booking.events", "e",
    ⟨"c", "e", "user-2", 1, "show", 0, none⟩, .pending, 0, 0, none, none, 0⟩

/- Two drains at once: the first takes one row, the second the row that is not locked. -/
def overlappingDrains : List (Act Job Choice Ext) :=
  overlappingBookings ++ [.start 3 (.drainOnce { batchSize := 1 } 0), .start 4 (.drainOnce {} 1),
    .step 3 .ok, .step 4 .ok, .step 3 .ok, .step 4 .ok, .step 3 (.rows [oneRow]),
    .step 4 (.rows [otherRow]), .step 4 .ok, .step 3 .ok, .step 3 .ok, .step 4 .ok, .step 4 .ok,
    .step 3 .ok, .step 3 .ok, .step 4 .ok, .step 3 .ok, .step 4 .ok]

theorem published_after_accepted_one : ∃ p : ApiPool,
    p.shared.outbox.committed.map (·.status) = [.published] ∧
    (∀ c ∈ p.shared.outbox,
      (c.committed.status = .published ∨ ∃ t, (c.view t).status = .published) →
      ∃ m ∈ p.shared.kafka, m.headers.messageId = some c.committed.id ∧
        m.key = c.committed.messageKey ∧ m.topic = c.committed.topic ∧
        m.value = c.committed.payload) ∧
    ∀ (i : Nat) (r : OutboxRow), p.shared.outbox.committed[i]? = some r →
      ∃ r', p.shared.outbox.committed[i]? = some r' ∧ r'.id = r.id ∧
        (r.status = .published ∨ r.status = .failed → r' = r) := by
  have replay : (((api fun _ _ => 0).run migrated oneDrain).map fun p =>
      p.shared.outbox.committed.map (·.status)) = some [.published] := by decide +kernel
  obtain ⟨p, hp, published⟩ := Option.map_eq_some_iff.mp replay
  refine ⟨p, published, published_after_accepted (fun _ _ => 0) p p ?_ .refl⟩
  exact any_run hp fun _ _ _ => trivial

end Overbook
