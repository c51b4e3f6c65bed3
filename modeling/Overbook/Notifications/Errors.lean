import Overbook.Notifications.Handling

/-! Errors make no message vanish, as long as a release takes effect, a claim that is inserted is
answered, and a dead letter is stored. -/
namespace Overbook.Notifications

open Async Prog Kafka OneUse

variable {config : AppConfiguration} {approx : Rat → Rat} {names : String → Origin}

/-- No process stops. Any insert may fail, any delivery, and any publish to the retry topic, before
or after the broker has stored the message. -/
def recoverable (names : String → Origin) : Regime where
  messages := Named names
  answers e c :=
    match e with
    | .insertClaim _ => c ≠ .lostReply
    | .deleteClaim .. => c ≠ .fail
    | .sendBatch batch => c = .fail → ∀ m ∈ sent batch, ∀ letter, m.value ≠ .deadLetter letter
    | _ => True
  kills _ := False
  shutdowns := False

theorem recoverable_tidy (names : String → Origin) : (recoverable names).Tidy where
  insert _ h := h rfl
  delete _ _ h := h rfl
  delivering _ h := h
  deleting _ _ h := h

theorem recoverable_posts (names : String → Origin) : (recoverable names).Posts :=
  fun _ m letter one value h => h rfl m (one ▸ List.mem_singleton_self m) letter value

/-- The notification of `record` is not lost: it has been delivered, another handler than `t` is
delivering it, it is a dead letter, or a retry copy of it waits that nothing will skip. -/
inductive NotLost (config : AppConfiguration) (p : ConsumerPool) (t : Tid) (record : Record) :
    Prop where
  | sent {d : Delivery} (sent : d ∈ p.shared.delivered) (origin : d.origin = record.origin)
  | delivering {t' : Tid} (other : t' ≠ t) (delivering : Delivering record.messageId p t')
  | dead {d : Dead} (dead : d ∈ p.shared.dlq) (origin : d.origin = record.origin)
  | retried {i : Nat} {copy : Record} (there : p.shared.log[i]? = some copy)
      (topic : copy.topic = config.kafka.topics.retry) (origin : copy.origin = record.origin)
      (unconsumed : i ∉ p.shared.consumed)
      (unclaimed : p.shared.processed (copy.messageId, config.kafka.consumerGroup) = none)

theorem claimed_not_lost {q : ConsumerPool} {t : Tid} {j : Job} {record : Record} {row : Claimed}
    (run : (consumers config approx).Reach (recoverable names).Ok deployed q)
    (resolved : q.slot t = .ended j (.ok ())) (there : record ∈ q.shared.log)
    (claimed : q.shared.processed (record.messageId, config.kafka.consumerGroup) = some row)
    (calm : ∀ t', ¬ Releasing config.kafka.consumerGroup record.messageId q t') :
    NotLost config q t record := by
  rcases claim_in_hand (recoverable_tidy names) run claimed with sent | delivering | releasing
  · obtain ⟨d, hd, origin⟩ := sent_origin (consumers_sound run).inv rfl there rfl sent
    exact .sent hd origin
  · have hand : Delivering record.messageId q row.owner ∨
        Releasing config.kafka.consumerGroup record.messageId q row.owner := .inl delivering
    exact .delivering (not_settled resolved hand) delivering
  · exact absurd releasing (calm row.owner)

/-- When `onMessage` resolves and no handler is deleting a claim on the message, its notification
is not lost. -/
theorem no_message_vanishes (config : AppConfiguration) (approx : Rat → Rat)
    (names : String → Origin) (p q : ConsumerPool) (a : Act Job Choice Ext) (t : Tid) (j : Job)
    (run : (consumers config approx).Reach (recoverable names).Ok deployed p)
    (ok : (recoverable names).Ok p a) (st : (consumers config approx).step p a = some q)
    (before : p.slot t ≠ .ended j (.ok ())) (resolved : q.slot t = .ended j (.ok ())) :
    ∃ record, q.shared.log[j.index]? = some record ∧
      ((∀ t', ¬ Releasing config.kafka.consumerGroup record.messageId q t') →
        NotLost config q t record) := by
  have after := run.step ok st
  obtain ⟨record, there, outcome⟩ :=
    resolved_outcome (recoverable_posts names) run ok st before resolved
  refine ⟨record, there, fun calm => ?_⟩
  have logged := List.mem_of_getElem? there
  rcases outcome with stopped | outcome
  · have none := (never_stopped (R := recoverable names) id after).2
    exact absurd (none ▸ stopped) List.not_mem_nil
  · cases outcome with
    | sent sent origin => exact .sent sent origin
    | dead dead origin => exact .dead dead origin
    | duplicate claimed => exact claimed_not_lost after resolved logged claimed calm
    | @retried i copy copied unconsumed _ topic messageId origin =>
      cases claim : q.shared.processed (copy.messageId, config.kafka.consumerGroup) with
      | none => exact .retried copied topic origin unconsumed claim
      | some row =>
        rw [messageId] at claim
        exact claimed_not_lost after resolved logged claim calm

/- The delivery fails, the claim is released, and a retry copy is due to be published. -/
def aboutToRetry : List (Act Job Choice Ext) :=
  handedOut ++ [.step 1 .ok, .step 1 .ok, .step 1 .ok, .step 1 (.threw (.other "no provider")),
    .step 1 .ok, .step 1 (.random 0), .step 1 (.time 0)]

theorem no_message_vanishes_retried : ∃ (q : ConsumerPool) (j : Job),
    q.slot 1 = .ended j (.ok ()) ∧ ∃ record, q.shared.log[j.index]? = some record ∧
      NotLost {} q 1 record := by
  have replay : (((consumers {} id).runChecked plain deployed aboutToRetry).bind fun p =>
      ((consumers {} id).step p (.step 1 (.stored 0))).map fun q =>
        ((p.slot 1).isLive, resolvedJob (q.slot 1))) = some (true, some ⟨0, false, 0⟩) := by
    decide +kernel
  obtain ⟨p, hp, last⟩ := Option.bind_eq_some_iff.mp replay
  obtain ⟨q, hq, seen⟩ := Option.map_eq_some_iff.mp last
  obtain ⟨live, resolved⟩ := Prod.mk.inj seen
  have answers : ∀ e c, c ≠ .fail → c ≠ .lostReply → (∀ n, c ≠ .storedUnanswered n) →
      (recoverable .named).answers e c := by
    intro e c fail lostReply _
    cases e <;> first | exact fail | exact lostReply | exact fun h => absurd h fail | trivial
  have ok := fun a (q : ConsumerPool) => plain_ok (p := q) (a := a) rfl answers
  have run := Machine.Reach.of_checked hp fun a _ q => ok a q
  have before : p.slot 1 ≠ .ended ⟨0, false, 0⟩ (.ok ()) := by
    intro ended
    rw [ended] at live
    cases live
  have ended := ended_of_resolvedJob resolved
  obtain ⟨record, there, kept⟩ := no_message_vanishes {} id .named p q (.step 1 (.stored 0)) 1 _ run
    (ok _ p rfl) hq before ended
  -- the one handler there is has ended
  have calm : ∀ t, ¬ Releasing "overbook-notifications" record.messageId q t := by
    rintro t ⟨j, k, releasing⟩
    by_cases one : t = 1
    · subst one
      cases ended.symm.trans releasing
    · have others : ∀ a ∈ aboutToRetry, a.task ≠ some t := by
        simp [aboutToRetry, handedOut, Act.task, Ne.symm one]
      have idle := (Machine.steps_slot (Machine.steps_of_step hq) (by simp [Act.task, Ne.symm one])).trans
        (Machine.runChecked_slot hp others)
      cases idle.symm.trans releasing
  exact ⟨q, _, ended, record, there, kept calm⟩

/- No process stops; anything else may happen. -/
def unstopped : Regime where
  kills _ := False
  shutdowns := False

/- The DELETE of the claim fails, and the retry copy is published all the same. -/
def neverReleased : List (Act Job Choice Ext) :=
  handedOut ++ [.step 1 .ok, .step 1 .ok, .step 1 .ok, .step 1 (.threw (.other "no provider")),
    .step 1 .fail, .step 1 (.random 0), .step 1 (.time 0), .step 1 (.stored 0)]

theorem vanished_behind_claim : ∃ p : ConsumerPool,
    (consumers {} id).Reach unstopped.Ok deployed p ∧ p.shared.consumed = [0] ∧
      p.shared.delivered = [] ∧ (∀ t, (p.slot t).isLive = false) ∧ p.shared.dlq = [] ∧
      ∀ r ∈ p.shared.log, (p.shared.processed (r.messageId, "overbook-notifications")).isSome := by
  have replay : (((consumers {} id).run deployed neverReleased).map fun p =>
      (p.shared.consumed, p.shared.delivered.length, (p.slot 1).isLive, p.shared.dlq.length,
        p.shared.log.all fun r =>
          (p.shared.processed (r.messageId, "overbook-notifications")).isSome)) =
      some ([0], 0, false, 0, true) := by decide +kernel
  obtain ⟨p, hp, seen⟩ := Option.map_eq_some_iff.mp replay
  simp only [Prod.mk.injEq] at seen
  obtain ⟨consumed, delivered, ended, dlq, claimed⟩ := seen
  have idle := Machine.run_no_live hp [1] (by decide) (by simpa using ended)
  refine ⟨p, .of_run hp ?_, consumed, List.length_eq_zero_iff.mp delivered, idle,
    List.length_eq_zero_iff.mp dlq, List.all_eq_true.mp claimed⟩
  intro a ha q
  cases a with
  | start t j => trivial
  | step t c => exact fun _ _ _ _ => trivial
  | kill t => simp [neverReleased, handedOut] at ha
  | env x =>
    cases x with
    | onApplicationShutdown replica => simp [neverReleased, handedOut] at ha
    | _ => trivial

end Overbook.Notifications
