import Overbook.Notifications.Handling

/-! A graceful shutdown loses no notification whose handler has not read the flag as set. -/
namespace Overbook.Notifications

open Async Prog Kafka OneUse

/-- Postgres and Kafka are healthy, deliveries may fail, and any replica may be shut down at any
moment. Independent records have different ids. -/
def healthy (names : String → Origin) : Regime where
  messages := Named names
  answers e c :=
    match e with
    | .insertClaim _ => c ≠ .fail ∧ c ≠ .lostReply
    | .deleteClaim .. => c ≠ .fail ∧ c ≠ .lostReply
    | .sendBatch _ => c ≠ .fail ∧ ∀ partition, c ≠ .storedUnanswered partition
    | _ => True
  kills _ := False

theorem healthy_tidy (names : String → Origin) : (healthy names).Tidy where
  insert _ h := h.2 rfl
  delete _ _ h := h.1 rfl
  delivering _ h := h
  deleting _ _ h := h

theorem healthy_posts (names : String → Origin) : (healthy names).Posts :=
  fun _ _ _ _ _ h => h.1 rfl

/-- What has become of the notification of `record`, the record of job `j`, whose handler `t` has
resolved. A republished copy is another record than the one handled, and is still to be consumed. -/
inductive Kept (config : AppConfiguration) (p : ConsumerPool) (t : Tid) (j : Job)
    (record : Record) : Prop where
  | sent {d : Delivery} (sent : d ∈ p.shared.delivered) (origin : d.origin = record.origin)
  | republished {i : Nat} {copy : Record} (there : p.shared.log[i]? = some copy)
      (unconsumed : i ∉ p.shared.consumed) (other : i ≠ j.index)
      (topic : copy.topic = config.kafka.topics.retry)
      (messageId : copy.messageId = record.messageId) (origin : copy.origin = record.origin)
  | dead {d : Dead} (dead : d ∈ p.shared.dlq) (origin : d.origin = record.origin)
  | duplicate {t' : Tid} (other : t' ≠ t) (handled : Delivering record.messageId p t' ∨
      Releasing config.kafka.consumerGroup record.messageId p t')

/-- Whenever replicas are shut down: the notification of a record whose `onMessage` resolves
without having read the flag as set is kept. -/
theorem shutdown_loses_nothing (config : AppConfiguration) (approx : Rat → Rat)
    (names : String → Origin) (p q : ConsumerPool) (a : Act Job Choice Ext) (t : Tid) (j : Job)
    (run : (consumers config approx).Reach (healthy names).Ok deployed p)
    (ok : (healthy names).Ok p a) (st : (consumers config approx).step p a = some q)
    (before : p.slot t ≠ .ended j (.ok ())) (resolved : q.slot t = .ended j (.ok ()))
    (unread : t ∉ q.shared.stopped) :
    ∃ record, q.shared.log[j.index]? = some record ∧ Kept config q t j record := by
  have after := run.step ok st
  obtain ⟨record, there, outcome⟩ :=
    resolved_outcome (healthy_posts names) run ok st before resolved
  refine ⟨record, there, ?_⟩
  rcases outcome with stopped | outcome
  · exact absurd stopped unread
  · cases outcome with
    | sent sent origin => exact .sent sent origin
    | dead dead origin => exact .dead dead origin
    | retried copied unconsumed new topic id origin =>
      exact .republished copied unconsumed new topic id origin
    | @duplicate row claimed =>
      rcases claim_in_hand (healthy_tidy names) after claimed with sent | hand
      · obtain ⟨d, hd, origin⟩ := sent_origin (consumers_sound after).inv rfl
          (List.mem_of_getElem? there) rfl sent
        exact .sent hd origin
      · exact .duplicate (not_settled resolved hand) hand

def gracefully (p : ConsumerPool) : Act Job Choice Ext → Bool
  | .env (.onApplicationShutdown _) => true
  | a => plain p a

theorem gracefully_ok {p : ConsumerPool} {a : Act Job Choice Ext} (h : gracefully p a = true) :
    (healthy .named).Ok p a := by
  have answers : ∀ e c, c ≠ .fail → c ≠ .lostReply → (∀ n, c ≠ .storedUnanswered n) →
      (healthy .named).answers e c := by
    intro e c fail lostReply unanswered
    cases e <;> first | exact ⟨fail, lostReply⟩ | exact ⟨fail, unanswered⟩ | trivial
  cases a with
  | env x =>
    cases x with
    | onApplicationShutdown replica => trivial
    | _ => exact plain_ok rfl answers h
  | _ => exact plain_ok rfl answers h

/- The replica is shut down while the handler delivers. -/
def shutDownDelivering : List (Act Job Choice Ext) :=
  handedOut ++ [.step 1 .ok, .step 1 .ok, .step 1 .ok, .env (.onApplicationShutdown 0)]

theorem shutdown_loses_nothing_delivering : ∃ (q : ConsumerPool) (j : Job),
    q.slot 1 = .ended j (.ok ()) ∧ q.shared.stopping 0 = true ∧
      ∃ record, q.shared.log[j.index]? = some record ∧ Kept {} q 1 j record := by
  have replay : (((consumers {} id).runChecked gracefully deployed shutDownDelivering).bind fun p =>
      ((consumers {} id).step p (.step 1 .ok)).map fun q =>
        ((p.slot 1).isLive, resolvedJob (q.slot 1), q.shared.stopping 0, q.shared.stopped)) =
      some (true, some ⟨0, false, 0⟩, true, []) := by
    decide +kernel
  obtain ⟨p, hp, last⟩ := Option.bind_eq_some_iff.mp replay
  obtain ⟨q, hq, seen⟩ := Option.map_eq_some_iff.mp last
  simp only [Prod.mk.injEq] at seen
  obtain ⟨live, resolved, stopping, unread⟩ := seen
  have run := Machine.Reach.of_checked hp fun a _ q => gracefully_ok (p := q) (a := a)
  have before : p.slot 1 ≠ .ended ⟨0, false, 0⟩ (.ok ()) := by
    intro ended
    rw [ended] at live
    cases live
  have ended := ended_of_resolvedJob resolved
  have kept := shutdown_loses_nothing {} id .named p q (.step 1 .ok) 1 _ run (gracefully_ok rfl) hq
    before ended (by simp [unread])
  exact ⟨q, _, ended, stopping, kept⟩

/- The replica is shut down just before the handler starts on its record. -/
def shutDownStarting : List (Act Job Choice Ext) :=
  handedOut ++ [.env (.onApplicationShutdown 0), .step 1 .ok]

theorem shutdown_loses_one : ∃ p : ConsumerPool,
    (consumers {} id).Reach (healthy .named).Ok deployed p ∧ p.shared.consumed = [0] ∧
      p.shared.delivered = [] ∧ p.shared.log.map (·.topic) = ["booking.events"] ∧
      p.shared.dlq = [] ∧ ∀ t, (p.slot t).isLive = false := by
  have replay : (((consumers {} id).runChecked gracefully deployed shutDownStarting).map fun p =>
      (p.shared.consumed, p.shared.delivered.length, p.shared.log.map (·.topic),
        p.shared.dlq.length, (p.slot 1).isLive)) =
      some ([0], 0, ["booking.events"], 0, false) := by decide +kernel
  obtain ⟨p, hp, seen⟩ := Option.map_eq_some_iff.mp replay
  simp only [Prod.mk.injEq] at seen
  obtain ⟨consumed, delivered, topics, dlq, ended⟩ := seen
  have run := Machine.Reach.of_checked hp fun a _ q => gracefully_ok (p := q) (a := a)
  have idle := Machine.run_no_live hp [1] (by decide) (by simpa using ended)
  exact ⟨p, run, consumed, List.length_eq_zero_iff.mp delivered, topics,
    List.length_eq_zero_iff.mp dlq, idle⟩

end Overbook.Notifications
