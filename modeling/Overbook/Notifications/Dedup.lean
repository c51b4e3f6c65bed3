import Overbook.Notifications.Handling

/-! A claim hides nothing, as long as no handler leaves one behind undelivered. -/
namespace Overbook.Notifications

open Async Prog Kafka OneUse

variable {config : AppConfiguration} {approx : Rat → Rat}

/-- No claim is left behind: an insert that takes effect is answered, a release takes effect, and
no handler dies with a claim it has not delivered. Independent records have different ids. -/
def orderly (names : String → Origin) : Regime where
  messages := Named names
  answers e c :=
    match e with
    | .insertClaim _ => c ≠ .lostReply
    | .deleteClaim .. => c ≠ .fail
    | _ => True
  kills e :=
    match e with
    | .deliver _ => False
    | .deleteClaim .. => False
    | _ => True

theorem orderly_tidy (names : String → Origin) : (orderly names).Tidy where
  insert _ h := h rfl
  delete _ _ h := h rfl
  delivering _ h := h
  deleting _ _ h := h

variable {names : String → Origin}

theorem hides_iff {p : ConsumerPool}
    (run : (consumers config approx).Reach (orderly names).Ok deployed p) {id : String}
    {row : Claimed} (claimed : p.shared.processed (id, config.kafka.consumerGroup) = some row) :
    ((∀ t, ¬ Delivering id p t) → Sent id p.shared) ↔
      ∀ t, ¬ Releasing config.kafka.consumerGroup id p t := by
  have sound := consumers_sound run
  constructor
  · rintro hides t ⟨j, k, live⟩
    obtain ⟨⟨_, may⟩, _⟩ := sound.here live
    have nobody : ∀ t', ¬ Delivering id p t' := by
      rintro t' ⟨j', message, k', live', same⟩
      obtain ⟨⟨may', _⟩, _⟩ := sound.here live'
      rw [same] at may'
      -- only one handler holds the claim
      have one : t = t' := Option.some.inj (may.holds.symm.trans may'.holds)
      subst one
      cases live.symm.trans live'
    exact sent_iff_used.mp (hides nobody) (may.first (sound.inv.once id))
  · intro calm nobody
    rcases claim_in_hand (orderly_tidy names) run claimed with sent | delivering | releasing
    · exact sent
    · exact absurd delivering (nobody row.owner)
    · exact absurd releasing (calm row.owner)

/-- What the table of claims hides in the pool `p`: a claimed message has been delivered unless a
handler is at it, except while the claim of a failed delivery is being deleted; and a record is
skipped as a duplicate only where its message has been delivered or is in a handler's hands. -/
structure HidesNothing (config : AppConfiguration) (approx : Rat → Rat) (R : Regime)
    (p : ConsumerPool) : Prop where
  claims : ∀ id row, p.shared.processed (id, config.kafka.consumerGroup) = some row →
    (((∀ t, ¬ Delivering id p t) → Sent id p.shared) ↔
      ∀ t, ¬ Releasing config.kafka.consumerGroup id p t)
  skips : ∀ t c q, R.Ok p (.step t c) → (consumers config approx).step p (.step t c) = some q →
    q.shared.skipped ≠ p.shared.skipped → ∃ record, Handles t record q.shared ∧
      ((∃ d ∈ q.shared.delivered, d.origin = record.origin) ∨
        ∃ t', Delivering record.messageId q t' ∨
          Releasing config.kafka.consumerGroup record.messageId q t')

/- The record is handed out again after its delivery. -/
def deliveredAndSkipped : List (Act Job Choice Ext) :=
  handedOut ++ [.step 1 .ok, .step 1 .ok, .step 1 .ok, .step 1 .ok,
    .start 2 ⟨1, false, 0⟩, .step 2 .ok, .step 2 .ok, .step 2 .ok, .step 2 .ok]

def anything : Regime := {}

theorem anything_ok (p : ConsumerPool) (a : Act Job Choice Ext) : anything.Ok p a := by
  cases a with
  | start t j => trivial
  | step t c => exact fun _ _ _ _ => trivial
  | kill t => exact fun _ _ _ _ => trivial
  | env x => cases x <;> trivial

/- The first handler dies with the claim; the record is handed out again and skipped. -/
def diedDelivering : List (Act Job Choice Ext) :=
  handedOut ++ [.step 1 .ok, .step 1 .ok, .step 1 .ok, .kill 1,
    .start 2 ⟨1, false, 0⟩, .step 2 .ok, .step 2 .ok, .step 2 .ok, .step 2 .ok]

end Overbook.Notifications
