import Overbook.Store.Statements

/-! What a statement that has succeeded has done, one lemma a statement. -/
namespace Overbook

open Async ReadCommitted Kafka Store

variable {partition : String → String → Nat} {t : Tid} {s s' : Store} {c : Choice}

attribute [local simp] exec

theorem begin_ok {u : Unit} (h : exec partition t s .beginTx c = some (s', .ok u)) :
    s.active t = false ∧ s' = s.beginTx t := by
  cases c <;> simp only [exec, failed, Option.some.injEq, Prod.mk.injEq, reduceCtorEq,
    and_false] at h
  split at h
  · cases h
  · rename_i idle
    cases Option.some.inj h
    exact ⟨by simpa using idle, rfl⟩

theorem commit_ok {u : Unit} (h : exec partition t s .commitTx c = some (s', .ok u)) :
    s.active t = true ∧ s' = s.commitTx t := by
  cases c <;> simp only [exec, failed, Option.some.injEq, Prod.mk.injEq, reduceCtorEq,
    and_false] at h
  · split at h
    · rename_i act
      cases Option.some.inj h
      exact ⟨act, rfl⟩
    · cases h
  · split at h <;> cases h

theorem findEvent_ok {id : Uuid} {row : Option EventRow}
    (h : exec partition t s (.findEvent id) c = some (s', .ok row)) :
    s' = s ∧ row = (s.events id).map (·.view t) := by
  cases c <;> simp only [exec, failed, Option.some.injEq, Prod.mk.injEq, reduceCtorEq,
    and_false, Except.ok.injEq] at h
  exact ⟨h.1.symm, h.2.symm⟩

/-- A locking read finds no row, or locks the row and returns its newest version. -/
theorem findEventForUpdate_ok {id : Uuid} {row : Option EventRow}
    (h : exec partition t s (.findEventForUpdate id) c = some (s', .ok row)) :
    s.active t = true ∧ ((s.events id = none ∧ s' = s ∧ row = none) ∨ ∃ cell,
      s.events id = some cell ∧ cell.free t = true ∧ s' = s.putEvent id (cell.lock t) ∧
      row = some (cell.view t)) := by
  cases c <;> simp only [exec, failed, Option.some.injEq, Prod.mk.injEq, reduceCtorEq,
    and_false] at h
  split at h
  · rename_i act
    refine ⟨act, ?_⟩
    split at h
    · rename_i absent
      cases Option.some.inj h
      exact .inl ⟨absent, rfl, rfl⟩
    · rename_i cell hc
      split at h
      · rename_i free
        cases Option.some.inj h
        exact .inr ⟨cell, hc, free, rfl, rfl⟩
      · cases h
  · cases h

theorem updateEvent_ok {id : Uuid} {cond : EventRow → Bool} {patch : EventPatch} {affected : Nat}
    (h : exec partition t s (.updateEvent id cond patch) c = some (s', .ok affected)) :
    s.active t = true ∧ ((s' = s ∧ affected = 0 ∧
        ∀ cell, s.events id = some cell → cond (cell.view t) = false) ∨
      ∃ cell, s.events id = some cell ∧ cell.free t = true ∧ cond (cell.view t) = true ∧
        s' = s.putEvent id (cell.write t (patch.apply (cell.view t))) ∧ affected = 1) := by
  cases c <;> simp only [exec, failed, Option.some.injEq, Prod.mk.injEq, reduceCtorEq,
    and_false] at h
  split at h
  · rename_i act
    refine ⟨act, ?_⟩
    split at h
    · rename_i none
      cases Option.some.inj h
      exact .inl ⟨rfl, rfl, fun cell hc => by rw [none] at hc; cases hc⟩
    · rename_i cell hc
      split at h
      · rename_i free
        split at h
        · rename_i matched
          cases Option.some.inj h
          exact .inr ⟨cell, hc, free, matched, rfl, rfl⟩
        · rename_i missed
          cases Option.some.inj h
          refine .inl ⟨rfl, rfl, fun cell' hc' => ?_⟩
          cases Option.some.inj (hc.symm.trans hc')
          simpa using missed
      · rename_i busy
        split at h
        · cases h
        · rename_i missed
          cases Option.some.inj h
          refine .inl ⟨rfl, rfl, fun cell' hc' => ?_⟩
          cases Option.some.inj (hc.symm.trans hc')
          rw [Cell.view_of_not_free (by simpa using busy)]
          simpa using missed
  · cases h

theorem insertBooking_ok {row : CreateBooking} {b : BookingRow}
    (h : exec partition t s (.insertBooking row) c = some (s', .ok b)) :
    s.active t = true ∧ s.fresh b.id = true ∧
      b = ⟨b.id, row.eventId, row.userId, row.quantity, row.status, row.idempotencyKey, s.now t⟩ ∧
      s' = (s.issue b.id t).setTx t { s.tx t with bookings := (s.tx t).bookings ++ [b] } := by
  cases c <;> simp only [exec, failed, Option.some.injEq, Prod.mk.injEq, reduceCtorEq,
    and_false] at h
  split at h
  · rename_i ok
    simp only [Bool.and_eq_true] at ok
    cases Option.some.inj h
    exact ⟨ok.1.1, ok.1.2, rfl, rfl⟩
  · cases h

theorem insertOutbox_ok {row : CreateOutboxMessage} {m : OutboxRow}
    (h : exec partition t s (.insertOutbox row) c = some (s', .ok m)) :
    s.active t = true ∧ s.fresh m.id = true ∧
      m = ⟨m.id, row.aggregateType, row.aggregateId, row.eventType, row.topic, row.messageKey,
        row.payload, row.status, row.attempts, row.availableAt, none, none, s.now t⟩ ∧
      s' = (s.issue m.id t).setTx t { s.tx t with outbox := (s.tx t).outbox ++ [m] } := by
  cases c <;> simp only [exec, failed, Option.some.injEq, Prod.mk.injEq, reduceCtorEq,
    and_false] at h
  split at h
  · rename_i ok
    simp only [Bool.and_eq_true] at ok
    cases Option.some.inj h
    exact ⟨ok.1, ok.2, rfl, rfl⟩
  · cases h

theorem selectPending_ok {limit : Int} {rows : List OutboxRow}
    (h : exec partition t s (.selectPending limit) c = some (s', .ok rows)) :
    c = .rows rows ∧ s.active t = true ∧
      Selects limit ((s.outbox.filter (s.eligible t)).map (·.committed)) rows ∧
      s' = (s.putOutbox (s.outbox.write t (s.picks t rows) id)).setTx t
        { s.tx t with selected := rows.map (·.id) } := by
  cases c <;> simp only [exec, failed, Option.some.injEq, Prod.mk.injEq, reduceCtorEq,
    and_false] at h
  split at h
  · rename_i ok
    simp only [Bool.and_eq_true, decide_eq_true_eq] at ok
    cases Option.some.inj h
    exact ⟨rfl, ok.1.1, ok.2, rfl⟩
  · cases h

theorem updateOutbox_ok {ids : List Uuid} {patch : OutboxPatch} {u : Unit}
    (h : exec partition t s (.updateOutbox ids patch) c = some (s', .ok u)) :
    s.active t = true ∧ s.outbox.freeFor t (among ids) = true ∧
      s' = s.putOutbox (s.outbox.write t (among ids) (patch.apply (s.now t))) := by
  cases c <;> simp only [exec, failed, Option.some.injEq, Prod.mk.injEq, reduceCtorEq,
    and_false] at h
  split at h
  · rename_i ok
    simp only [Bool.and_eq_true] at ok
    cases Option.some.inj h
    exact ⟨ok.1, ok.2, rfl⟩
  · cases h

theorem countPending_ok {n : Nat} (h : exec partition t s .countPending c = some (s', .ok n)) :
    s' = s := by
  cases c <;> simp only [exec, failed, Option.some.injEq, Prod.mk.injEq, reduceCtorEq,
    and_false] at h
  split at h
  · cases Option.some.inj h; rfl
  · cases h

theorem dateNow_ok {r : Except Err Time} (h : exec partition t s .dateNow c = some (s', r)) :
    s' = s := by
  cases c <;> simp only [exec, Option.some.injEq, Prod.mk.injEq, reduceCtorEq] at h
  exact h.1.symm

/-- A batch was accepted whole, or refused after some partitions of it. -/
theorem sendBatch_cases {batch : List (TopicMessages BookingConfirmedPayload)}
    {r : Except Err Unit} (h : exec partition t s (.sendBatch batch) c = some (s', r)) :
    (c = .ok ∧ r = .ok () ∧ s' = { s with
        kafka := s.kafka ++ sent batch, batches := s.batches ++ [(t, sent batch)] }) ∨
    ∃ parts, c = .refused parts ∧ r = .error lost ∧ s' = { s with
        kafka := s.kafka ++ acceptedPart partition parts (sent batch)
        batches := s.batches ++ [(t, sent batch)] } := by
  cases c <;> simp only [exec, Option.some.injEq, Prod.mk.injEq, reduceCtorEq] at h
  · exact .inl ⟨rfl, h.2.symm, h.1.symm⟩
  · exact .inr ⟨_, rfl, h.2.symm, h.1.symm⟩

end Overbook
