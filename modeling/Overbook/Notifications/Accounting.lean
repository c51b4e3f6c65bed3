import Mathlib.Algebra.BigOperators.Group.Finset.Basic
import Mathlib.Algebra.Order.BigOperators.Group.Finset
import Mathlib.Algebra.BigOperators.Group.Multiset.Basic
import Mathlib.Data.Set.Card
import Overbook.Notifications.EndsOnce

/-! The stats of the notifications beside the dead letters: together they account for every message
that the relay has published. -/
namespace Overbook.Notifications

open Async Prog Kafka Retrying

structure Stats where
  consumerGroup : String
  processed : Nat

/- `NotificationsService.stats`, one count over `processed_messages`. -/
noncomputable def stats (config : AppConfiguration) (s : Inbox) : Stats where
  consumerGroup := config.kafka.consumerGroup
  processed := Set.ncard {id | (s.processed (id, config.kafka.consumerGroup)).isSome = true}

def messageIds (s : Inbox) : Finset String := (s.log.map fun r => r.messageId).toFinset

def openIds (s : Inbox) : Finset String :=
  (messageIds s).filter fun id => ∃ i ∈ List.range s.log.length,
    (s.log[i]?).any (fun r => r.messageId == id) = true ∧ i ∉ s.consumed

/-- Only the relay publishes, and no message twice. -/
def relaysOnce (config : AppConfiguration) (toISOString : Time → String) (p : ConsumerPool)
    (a : Act Job Choice Ext) : Prop :=
  handedOnce config p a ∧ match a with
    | .env (.produce topic partition key value headers) => ∃ row : OutboxRow, row.id ≠ "" ∧
        Relayed toISOString (relayMessage row) (.produce topic partition key value headers) ∧
          ∀ r ∈ p.shared.log, r.messageId ≠ row.id
    | _ => True

/-- No message is counted twice, and one that is in neither count still has a record to handle. -/
structure Accounts (config : AppConfiguration) (s : Inbox) : Prop where
  once : (stats config s).processed + s.dlq.length ≤ (messageIds s).card
  all : (messageIds s).card ≤ (stats config s).processed + s.dlq.length + (openIds s).card
  sent : s.delivered.length ≤ (stats config s).processed
  underway : (stats config s).processed ≤ s.delivered.length + (openIds s).card

variable {config : AppConfiguration} {approx : Rat → Rat} {toISOString : Time → String}
  {entries : List (Entry Inbox Effect.Answer Err)} {p q : ConsumerPool} {t : Tid} {j : Job}
  {s s' : Inbox} {record : Record} {point : Point} {id : String}

/- A list, counted class by class. -/
theorem length_eq_sum {α β : Type} [DecidableEq β] (f : α → β) {l : List α} {classes : Finset β}
    (all : ∀ a ∈ l, f a ∈ classes) :
    l.length = ∑ b ∈ classes, (l.filter fun a => f a == b).length := by
  have counted := Multiset.sum_count_eq_card (s := classes) (m := (l.map f : List β))
    (by simpa using all)
  simp only [Multiset.coe_count, Multiset.coe_card, List.length_map] at counted
  rw [← counted]
  refine Finset.sum_congr rfl fun b _ => ?_
  rw [List.count, List.countP_map, List.countP_eq_length_filter]
  rfl

/-! Everything that is kept belongs to a message with an id. -/

structure Identified (group : String) (s : Inbox) : Prop where
  records : ∀ r ∈ s.log, r.messageId ≠ "" ∧ r.origin = .named r.messageId
  letters : ∀ d ∈ s.dlq, ∃ id, id ≠ "" ∧ d.origin = .named id
  sent : ∀ d ∈ s.delivered, d.message.messageId ≠ ""
  claims : s.processed ("", group) = none

theorem Identified.goes {y : Prog.Event Effect.Answer Err}
    (h : Identified config.kafka.consumerGroup s)
    (goes : Goes config approx j record t s point y s') (there : record ∈ s.log)
    (origin : point ≠ .fetching → s.origin t = record.origin) :
    Identified config.kafka.consumerGroup s' := by
  obtain ⟨identified, named⟩ := h.records record there
  have other : ("", config.kafka.consumerGroup) ≠
      (record.messageId, config.kafka.consumerGroup) :=
    fun same => identified (congrArg Prod.fst same).symm
  cases goes with
  | idled => exact h
  | fetched => exact ⟨h.records, h.letters, h.sent, h.claims⟩
  | skipped => exact ⟨h.records, h.letters, h.sent, h.claims⟩
  | refused => exact h
  | claimed free => exact ⟨h.records, h.letters, h.sent, (s.setClaim_of_ne other _).trans h.claims⟩
  | released error =>
    exact ⟨h.records, h.letters, h.sent, (s.setClaim_of_ne other _).trans h.claims⟩
  | delivered =>
    refine ⟨h.records, h.letters, fun d hd => ?_, h.claims⟩
    rcases List.mem_append.mp hd with old | new
    · exact h.sent d old
    · cases List.mem_singleton.mp new
      exact identified
  | retried error random now partition =>
    have same : s.accept t partition (retryOf config approx record error random now) =
        { s with log := s.log ++ [s.copied t partition
          (retryOf config approx record error random now) record.body.parsed] } := rfl
    rw [same]
    refine ⟨fun r hr => ?_, h.letters, h.sent, h.claims⟩
    rcases List.mem_append.mp hr with old | new
    · exact h.records r old
    · cases List.mem_singleton.mp new
      exact ⟨identified, (origin nofun).trans named⟩
  | buried attempts reason now partition =>
    rw [accept_letter rfl]
    refine ⟨h.records, fun d hd => ?_, h.sent, h.claims⟩
    rcases List.mem_append.mp hd with old | new
    · exact h.letters d old
    · cases List.mem_singleton.mp new
      exact ⟨record.messageId, identified, (origin nofun).trans named⟩

theorem empty_identified (group : String) : Identified group .empty where
  records _ h := absurd h List.not_mem_nil
  letters _ h := absurd h List.not_mem_nil
  sent _ h := absurd h List.not_mem_nil
  claims := rfl

/-- What every answer preserves, given where its handler stands, and what preserves whatever is
published, holds in every state. -/
theorem goes_invariant {Ok : ConsumerPool → Act Job Choice Ext → Prop} {J : Inbox → Prop}
    (handed : ∀ q a, Ok q a → handedOnce config q a)
    (h : (consumers config approx).History Ok deployed entries p) (start : J .empty)
    (ends : ∀ s consumed, J s → J { s with consumed := consumed })
    (tick : ∀ s d, J s → J (ext s (.tick d)))
    (goes : ∀ t j record point y s s', J s → Goes config approx j record t s point y s' →
      record ∈ s.log → (point ≠ .fetching → s.origin t = record.origin) → J s')
    (produced : ∀ q topic partition key value headers,
      Ok q (.env (.produce topic partition key value headers)) → J q.shared →
        J (ext q.shared (.produce topic partition key value headers))) : J p.shared := by
  induction h with
  | refl => exact start
  | @step entries q q' a past ok st ih =>
    have before := past.mono handed
    have ok' := handed q a ok
    cases Machine.steps_of_step st with
    | @start t j idle ready =>
      obtain ⟨consumed, same⟩ := put_shared config approx q t j q.shared (j.code config approx)
      have shared : (Machine.put q t ((consumers config approx).settle t j q.shared
          ((consumers config approx).code j))).shared = { q.shared with consumed := consumed } := same
      rw [shared]
      exact ends _ _ ih
    | kill live => exact ok'.elim
    | @step t c j e k s r live answered =>
      have job : (q.slot t).job = some j := by rw [live]; rfl
      obtain ⟨record, mine⟩ := holds before t j job
      obtain ⟨point, stands, course⟩ := on_course before job mine.fetched
      rw [live] at course
      cases course with
      | live effect =>
        have gone := goes_of_exec effect (handedOnce_calm before.reach) (ok' _ _ _ live) answered
        have after := goes t j record point _ _ _ ih gone (List.mem_of_getElem? mine.there) ?_
        · obtain ⟨consumed, same⟩ := put_shared config approx q t j s (k r)
          rw [same]
          exact ends _ _ after
        · intro begun
          have handling := mine.handling fun none => begun (by rw [← stands.place, none]; rfl)
          simp [Inbox.origin, handling, mine.there]
    | @env x s happened =>
      cases Option.some.inj happened
      cases x with
      | tick d => exact tick _ d ih
      | onApplicationShutdown replica => exact ok'.elim
      | produce topic partition key value headers => exact produced q _ _ _ _ _ ok ih

theorem identified
    (h : (consumers config approx).History (relaysOnce config toISOString) deployed entries p) :
    Identified config.kafka.consumerGroup p.shared := by
  refine goes_invariant (fun _ _ ok => ok.1) h (empty_identified _) ?_ ?_ ?_ ?_
  · exact fun s consumed h => ⟨h.records, h.letters, h.sent, h.claims⟩
  · exact fun s d h => ⟨h.records, h.letters, h.sent, h.claims⟩
  · exact fun t j record point y s s' h goes there origin => h.goes goes there origin
  · intro q topic partition key value headers ok h
    obtain ⟨row, named, ⟨place, relayed⟩, -⟩ := ok.2
    cases relayed
    refine ⟨fun r hr => ?_, h.letters, h.sent, h.claims⟩
    rcases List.mem_append.mp hr with old | new
    · exact h.records r old
    · cases List.mem_singleton.mp new
      refine ⟨named, ?_⟩
      simp [Inbox.produced, relayMessage, Option.filter, named, Record.messageId]

theorem letters_kept {Ok : ConsumerPool → Act Job Choice Ext → Prop}
    (handed : ∀ q a, Ok q a → handedOnce config q a)
    (h : (consumers config approx).History Ok deployed entries p) :
    ∀ d ∈ p.shared.dlq, ∃ r ∈ p.shared.log, d.origin = r.origin ∧ d.message.value.raw = r.body := by
  refine goes_invariant (J := fun s => ∀ d ∈ s.dlq, ∃ r ∈ s.log, d.origin = r.origin ∧
    d.message.value.raw = r.body) handed h (fun _ h => absurd h List.not_mem_nil)
    (fun _ _ h => h) (fun _ _ h => h) ?_ ?_
  · intro t j record point y s s' h goes there origin
    have old : ∀ d ∈ s.dlq, ∃ r ∈ s'.log, d.origin = r.origin ∧ d.message.value.raw = r.body := by
      intro d hd
      obtain ⟨r, hr, same⟩ := h d hd
      exact ⟨r, goes.frame.1.subset hr, same⟩
    cases goes with
    | buried attempts reason now partition =>
      rw [accept_letter rfl] at old ⊢
      intro d hd
      rcases List.mem_append.mp hd with there' | new
      · exact old d there'
      · cases List.mem_singleton.mp new
        exact ⟨record, there, origin nofun, rfl⟩
    | _ => exact old
  · intro q topic partition key value headers ok h d hd
    obtain ⟨r, hr, same⟩ := h d hd
    exact ⟨r, List.mem_append_left _ hr, same⟩

/-! Each message has its own row. -/

theorem one_row (h : (consumers config approx).History (relaysOnce config toISOString) deployed
    entries p) (id : String) :
    (∀ row : OutboxRow, row.id = id →
      (consumers config approx).History (once config toISOString row) deployed entries p) ∨
    ∃ row : OutboxRow, row.id = id ∧ (∃ r ∈ p.shared.log, r.messageId = id) ∧
      (consumers config approx).History (once config toISOString row) deployed entries p := by
  induction h with
  | refl => exact .inl fun _ _ => .refl
  | @step entries q q' a past ok st ih =>
    have later : q.shared.log <+: q'.shared.log := log_kept (.step .refl ok st)
    by_cases fresh : ∀ row : OutboxRow, row.id = id → once config toISOString row q a
    · rcases ih with all | ⟨row, own, ⟨r, there, named⟩, once⟩
      · exact .inl fun row own => (all row own).step (fresh row own) st
      · exact .inr ⟨row, own, ⟨r, later.subset there, named⟩, once.step (fresh row own) st⟩
    · -- the message of a row with this id is published
      cases a with
      | env x =>
        cases x with
        | produce topic partition key value headers =>
          obtain ⟨row, named, relayed, first⟩ := ok.2
          have same : (q.shared.produced topic partition key value headers).messageId = row.id := by
            obtain ⟨place, relayed⟩ := relayed
            cases relayed
            rfl
          have own : row.id = id := by
            by_contra other
            refine fresh fun row' own' => ⟨ok.1, fun named' => ?_⟩
            exact absurd (same.symm.trans (named'.trans own')) other
          refine .inr ⟨row, own, ⟨q.shared.produced topic partition key value headers, ?_,
            same.trans own⟩, ?_⟩
          · cases Machine.steps_of_step st with
            | env happened =>
              cases Option.some.inj happened
              exact List.mem_append_right _ (List.mem_singleton_self _)
          · rcases ih with all | ⟨-, -, ⟨r, there, taken⟩, -⟩
            · exact (all row own).step ⟨ok.1, fun _ => ⟨relayed, first⟩⟩ st
            · exact absurd (taken.trans own.symm) (first r there)
        | tick d => exact absurd (fun row _ => ⟨ok.1, trivial⟩) fresh
        | onApplicationShutdown replica => exact absurd (fun row _ => ⟨ok.1, trivial⟩) fresh
      | _ => exact absurd (fun row _ => ⟨ok.1, trivial⟩) fresh

/-! The accounts of all messages. -/

/- A message is in at most one of the counts, and in none only while a record of it is open. -/
structure Fair (s : Inbox) (id : String) (a : Account) : Prop where
  once : a.claimed.toNat + a.letters.length ≤ 1
  sent : a.sent ≤ a.claimed.toNat
  closed : id ∉ openIds s → a.claimed.toNat + a.letters.length = 1 ∧ a.sent = a.claimed.toNat

/- Work that has not been abandoned leaves no letter, and only a claim goes before a delivery. -/
theorem accountOf_fair (w : Work) : (accountOf w).claimed.toNat + (accountOf w).letters.length ≤ 1 ∧
    (accountOf w).sent ≤ (accountOf w).claimed.toNat := by
  obtain ⟨n, stage⟩ := w
  cases stage <;> simp [accountOf]

theorem final_closed {w : Work} (final : Final w) :
    (accountOf w).claimed.toNat + (accountOf w).letters.length = 1 ∧
      (accountOf w).sent = (accountOf w).claimed.toNat := by
  obtain ⟨n, stage⟩ := w
  rcases final with succeeded | abandoned
  · cases succeeded
    exact ⟨rfl, rfl⟩
  · cases abandoned
    exact ⟨rfl, rfl⟩

theorem mem_messageIds : id ∈ messageIds s ↔ ∃ r ∈ s.log, r.messageId = id := by
  simp [messageIds]

theorem consumed_of_closed (closed : id ∉ openIds s) {i : Nat} {r : Record}
    (there : s.log[i]? = some r) (named : r.messageId = id) : i ∈ s.consumed := by
  by_contra more
  refine closed (Finset.mem_filter.mpr ⟨?_, i, ?_, ?_, more⟩)
  · exact mem_messageIds.mpr ⟨r, List.mem_of_getElem? there, named⟩
  · exact List.mem_range.mpr (List.getElem?_eq_some_iff.mp there).1
  · simp [there, named]

/-- The account of a message that has been published is fair, and others have none. -/
theorem fair_of_told (moderate : Moderate config) (identified : id ≠ "")
    (h : (consumers config approx).History (relaysOnce config toISOString) deployed entries p) :
    (id ∈ messageIds p.shared → Fair p.shared id (account config.kafka.consumerGroup id p.shared)) ∧
      (id ∉ messageIds p.shared →
        account config.kafka.consumerGroup id p.shared = ⟨false, 0, []⟩) := by
  obtain ⟨row, rfl, past⟩ : ∃ row : OutboxRow, row.id = id ∧
      (consumers config approx).History (once config toISOString row) deployed entries p := by
    rcases one_row h id with all | ⟨row, own, -, past⟩
    · exact ⟨{ oneRow with id := id }, rfl, all _ rfl⟩
    · exact ⟨row, own, past⟩
  rcases told moderate identified past with unpublished | ⟨i, w, -, tells⟩
  · refine ⟨fun there => ?_, fun _ => unpublished.accounted⟩
    obtain ⟨r, hr, named⟩ := mem_messageIds.mp there
    exact absurd named (copies_nil unpublished.nowhere hr)
  · obtain ⟨record, there, last, -⟩ := tells.current
    have named : record.messageId = row.id := (tells.carries _ _ last).named
    have found : row.id ∈ messageIds p.shared :=
      mem_messageIds.mpr ⟨record, List.mem_of_getElem? there, named⟩
    refine ⟨fun _ => ?_, fun none => absurd found none⟩
    rw [tells.accounted]
    refine ⟨(accountOf_fair w).1, (accountOf_fair w).2, fun closed => final_closed ?_⟩
    have run := (once_handed past).reach
    obtain ⟨t, j, ended, index⟩ := (consumed_iff run i).mp (consumed_of_closed closed there named)
    exact tells.final_of_ended run ended index

structure Counted (config : AppConfiguration) (s : Inbox) : Prop where
  processed : (stats config s).processed =
    ∑ id ∈ messageIds s, (account config.kafka.consumerGroup id s).claimed.toNat
  letters : s.dlq.length =
    ∑ id ∈ messageIds s, (account config.kafka.consumerGroup id s).letters.length
  sent : s.delivered.length = ∑ id ∈ messageIds s, (account config.kafka.consumerGroup id s).sent

theorem counted (known : Identified config.kafka.consumerGroup s)
    (others : ∀ id, id ≠ "" → id ∉ messageIds s →
      account config.kafka.consumerGroup id s = ⟨false, 0, []⟩) : Counted config s := by
  constructor
  · have rows : {id | (s.processed (id, config.kafka.consumerGroup)).isSome = true} =
        ((messageIds s).filter fun id =>
          (s.processed (id, config.kafka.consumerGroup)).isSome = true : Finset String) := by
      ext id
      rw [Finset.mem_coe, Finset.mem_filter]
      refine ⟨fun claimed => ⟨?_, claimed⟩, And.right⟩
      by_contra missing
      have claimed : (s.processed (id, config.kafka.consumerGroup)).isSome = true := claimed
      by_cases empty : id = ""
      · rw [empty, known.claims] at claimed
        cases claimed
      · have none := congrArg Account.claimed (others id empty missing)
        exact nomatch claimed.symm.trans none
    have count : (stats config s).processed =
        Set.ncard {id | (s.processed (id, config.kafka.consumerGroup)).isSome = true} := rfl
    rw [count, rows, Set.ncard_coe_finset, Finset.card_filter]
    refine Finset.sum_congr rfl fun id _ => ?_
    cases claimed : (s.processed (id, config.kafka.consumerGroup)).isSome <;>
      simp [account, claimed]
  · have all : ∀ d ∈ s.dlq,
        d.origin ∈ (messageIds s).map ⟨Origin.named, fun _ _ => Origin.named.inj⟩ := by
      intro d hd
      obtain ⟨id, identified, origin⟩ := known.letters d hd
      rw [origin, Finset.mem_map]
      refine ⟨id, ?_, rfl⟩
      by_contra missing
      have none := congrArg Account.letters (others id identified missing)
      have empty := List.filter_eq_nil_iff.mp (List.map_eq_nil_iff.mp none) d hd
      exact empty (by simp [origin])
    rw [length_eq_sum (fun d : Dead => d.origin) all, Finset.sum_map]
    refine Finset.sum_congr rfl fun id _ => ?_
    rw [account, List.length_map]
    rfl
  · have all : ∀ d ∈ s.delivered, d.message.messageId ∈ messageIds s := by
      intro d hd
      by_contra missing
      have none := congrArg Account.sent (others _ (known.sent d hd) missing)
      have empty := List.filter_eq_nil_iff.mp (List.length_eq_zero_iff.mp none) d hd
      exact empty (by simp)
    exact length_eq_sum (fun d : Delivery => d.message.messageId) all

/-- The stats and the dead letters account for every message: none is counted twice, and one that
neither of them counts still has a record to handle. -/
theorem nothing_vanishes (config : AppConfiguration) (approx : Rat → Rat)
    (toISOString : Time → String) (entries : List (Entry Inbox Effect.Answer Err))
    (p : ConsumerPool) (moderate : Moderate config)
    (h : (consumers config approx).History (relaysOnce config toISOString) deployed entries p) :
    Accounts config p.shared := by
  have known := identified h
  obtain ⟨processed, letters, sent⟩ :=
    counted known fun id given missing => (fair_of_told moderate given h).2 missing
  have fair : ∀ id ∈ messageIds p.shared,
      Fair p.shared id (account config.kafka.consumerGroup id p.shared) := by
    intro id there
    obtain ⟨r, hr, rfl⟩ := mem_messageIds.mp there
    exact (fair_of_told moderate (known.records r hr).1 h).1 there
  have opens : (openIds p.shared).card =
      ∑ id ∈ messageIds p.shared, if id ∈ openIds p.shared then 1 else 0 := by
    have part : openIds p.shared ⊆ messageIds p.shared := Finset.filter_subset ..
    rw [← Finset.card_filter, Finset.filter_mem_eq_inter, Finset.inter_eq_right.mpr part]
  constructor
  · rw [processed, letters, ← Finset.sum_add_distrib, Finset.card_eq_sum_ones]
    exact Finset.sum_le_sum fun id there => (fair id there).once
  · rw [processed, letters, opens, ← Finset.sum_add_distrib, ← Finset.sum_add_distrib,
      Finset.card_eq_sum_ones]
    refine Finset.sum_le_sum fun id there => ?_
    by_cases closed : id ∈ openIds p.shared
    · simp [closed]
    · have one := ((fair id there).closed closed).1
      simp only [closed, if_false]
      omega
  · rw [processed, sent]
    exact Finset.sum_le_sum fun id there => (fair id there).sent
  · rw [processed, sent, opens, ← Finset.sum_add_distrib]
    refine Finset.sum_le_sum fun id there => ?_
    have once := (fair id there).once
    by_cases closed : id ∈ openIds p.shared
    · simp only [closed, if_true]
      omega
    · have same := ((fair id there).closed closed).2
      simp only [closed, if_false]
      omega

/- The message of one row is delivered, that of the other is given up after one attempt. -/
def twoRows : List OutboxRow := [oneRow, { oneRow with id := "n" }]

def twoHandled : List (Act Job Choice Ext) :=
  [.step 1 .ok, .step 2 .ok, .step 1 .ok, .step 2 .ok, .step 1 .ok, .step 2 .ok, .step 1 .ok,
    .step 2 .ok, .step 1 .ok, .step 2 (.threw lost), .step 2 .ok, .step 2 (.time 0),
    .step 2 (.stored 0)]

def succeeding (p : ConsumerPool) : Act Job Choice Ext → Bool
  | .step t c =>
    match p.slot t with
    | .live _ e _ => c.succeeds e
    | _ => true
  | _ => false

theorem succeeding_ok {p : ConsumerPool} {t : Tid} {c : Choice}
    (h : succeeding p (.step t c) = true) : handedOnce config p (.step t c) := by
  intro j e k live
  simpa only [succeeding, live] using h

theorem nothing_vanishes_two : ∃ (config : AppConfiguration) (p : ConsumerPool),
    openIds p.shared = ∅ ∧ (messageIds p.shared).card = 2 ∧ p.shared.dlq.length = 1 ∧
      p.shared.delivered.length = 1 ∧ (stats config p.shared).processed = 1 := by
  let config : AppConfiguration := { notifications := { maxAttempts := 1 } }
  let relay (row : OutboxRow) : Ext :=
    .produce (relayMessage row).topic 0 (some (relayMessage row).key)
      (some (.json ((relayMessage row).value.json fun _ => ""))) (relayMessage row).headers
  let stored : Inbox := twoRows.foldl (fun s row => ext s (relay row)) .empty
  let machine := consumers config id
  let first : ConsumerPool := Machine.put ⟨stored, fun _ => .idle⟩ 1
    (machine.settle 1 ⟨0, false, 0⟩ stored (machine.code ⟨0, false, 0⟩))
  let both : ConsumerPool := Machine.put first 2
    (machine.settle 2 ⟨0, false, 1⟩ first.shared (machine.code ⟨0, false, 1⟩))
  have one : machine.History (relaysOnce config fun _ => "") deployed []
      ⟨ext .empty (relay oneRow), fun _ => .idle⟩ :=
    .step (a := .env (relay oneRow)) .refl
      ⟨trivial, oneRow, by decide, ⟨0, rfl⟩, fun _ h => absurd h List.not_mem_nil⟩ rfl
  have two : machine.History (relaysOnce config fun _ => "") deployed [] ⟨stored, fun _ => .idle⟩ :=
    .step (a := .env (relay { oneRow with id := "n" })) one
      ⟨trivial, { oneRow with id := "n" }, by decide, ⟨0, rfl⟩, by decide⟩ rfl
  have three : machine.History (relaysOnce config fun _ => "") deployed [] first :=
    .step (a := .start 1 ⟨0, false, 0⟩) two
      ⟨⟨⟨_, rfl, rfl⟩, fun t j job => by cases job⟩, trivial⟩ rfl
  have four : machine.History (relaysOnce config fun _ => "") deployed [] both := by
    refine .step (a := .start 2 ⟨0, false, 1⟩) three
      ⟨⟨⟨_, rfl, rfl⟩, fun t j job => ?_⟩, trivial⟩ rfl
    by_cases own : t = 1
    · subst own
      cases job
      decide
    · rw [Machine.put_of_ne own] at job
      cases job
  have replay : (machine.replay succeeding both twoHandled).map (fun x => (decide (openIds x.2.shared = ∅),
        (messageIds x.2.shared).card, x.2.shared.dlq.length, x.2.shared.delivered.length)) =
          some (true, 2, 1, 1) := by decide +kernel
  obtain ⟨⟨entries, p⟩, run, counts⟩ := Option.map_eq_some_iff.mp replay
  have history := four.of_replay (fun q a fits => by
    cases a with
    | step t c => exact ⟨succeeding_ok fits, trivial⟩
    | _ => cases fits) run
  simp only [Prod.mk.injEq, decide_eq_true_eq] at counts
  obtain ⟨closed, ids, letters, sent⟩ := counts
  have accounts := nothing_vanishes config id (fun _ => "") _ p
    ⟨by decide, by decide, by decide, by decide⟩ history
  have once := accounts.once
  have all := accounts.all
  rw [closed, Finset.card_empty] at all
  exact ⟨config, p, closed, ids, letters, sent, by omega⟩

end Overbook.Notifications
