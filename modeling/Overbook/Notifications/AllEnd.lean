import Overbook.Notifications.Accounting

/-! Messages end one after the other. What has ended stays as it is while others are handled, and so
every run can go on until all of its messages have ended. -/
namespace Overbook.Notifications

open Async Prog Kafka Retrying

def attendsTo (config : AppConfiguration) (toISOString : Time → String) (rows : List OutboxRow)
    (p : ConsumerPool) (a : Act Job Choice Ext) : Prop :=
  handedOnce config p a ∧ ∀ x, a = .env x → ∃ row ∈ rows, Relayed toISOString (relayMessage row) x ∧
    ∀ r ∈ p.shared.log, r.messageId ≠ row.id

/-- Nothing that is kept of the message has changed. -/
structure Unmoved (group id : String) (s s' : Inbox) : Prop where
  copies : copies id s' = copies id s
  accounted : account group id s' = account group id s

theorem Unmoved.refl (group id : String) (s : Inbox) : Unmoved group id s s := ⟨rfl, rfl⟩

theorem Unmoved.trans {group id : String} {s s' s'' : Inbox} (h : Unmoved group id s s')
    (h' : Unmoved group id s' s'') : Unmoved group id s s'' :=
  ⟨h'.copies.trans h.copies, h'.accounted.trans h.accounted⟩

variable {config : AppConfiguration} {approx : Rat → Rat} {toISOString : Time → String}
  {row row' : OutboxRow} {rows : List OutboxRow} {entries : List (Entry Inbox Effect.Answer Err)}
  {p q : ConsumerPool} {a : Act Job Choice Ext}

/-- A step moves nothing of the message, unless it is of a handler of one of its records or
publishes it. -/
theorem unmoved_step (identified : row.id ≠ "")
    (past : (consumers config approx).History (once config toISOString row) deployed entries p)
    (ok : handedOnce config p a) (st : (consumers config approx).step p a = some q)
    (others : ∀ t j e k record, p.slot t = .live j e k → p.shared.log[j.index]? = some record →
      a.task = some t → record.messageId ≠ row.id)
    (elsewhere : ∀ topic partition key value headers,
      a = .env (.produce topic partition key value headers) →
        (p.shared.produced topic partition key value headers).messageId ≠ row.id) :
    Unmoved config.kafka.consumerGroup row.id p.shared q.shared := by
  cases Machine.steps_of_step st with
  | @start t j idle ready =>
    obtain ⟨consumed, same⟩ := put_shared config approx p t j p.shared (j.code config approx)
    have shared : (Machine.put p t ((consumers config approx).settle t j p.shared
        ((consumers config approx).code j))).shared = { p.shared with consumed := consumed } := same
    rw [shared]
    exact ⟨rfl, rfl⟩
  | kill live => exact ok.elim
  | @step t c j e k s r live answered =>
    have job : (p.slot t).job = some j := by rw [live]; rfl
    obtain ⟨record, mine⟩ := holds (once_handed past) t j job
    have differs := others t j e k record live mine.there rfl
    obtain ⟨-, accounted, copies, -⟩ :=
      other_step identified past live (ok _ _ _ live) answered mine.there differs
    obtain ⟨consumed, same⟩ := put_shared config approx p t j s (k r)
    rw [same]
    exact ⟨copies, accounted⟩
  | @env x s happened =>
    cases Option.some.inj happened
    cases x with
    | tick d => exact ⟨rfl, rfl⟩
    | onApplicationShutdown replica => exact ok.elim
    | produce topic partition key value headers =>
      exact ⟨copies_produced (elsewhere topic partition key value headers rfl), rfl⟩

theorem Consumed.others (run : (consumers config approx).Reach (handedOnce config) deployed p)
    (h : Consumed row.id p.shared) {t : Tid} {j : Job} {e : Effect}
    {k : Except Err e.Answer → Consumer Unit} {record : Record} (live : p.slot t = .live j e k)
    (there : p.shared.log[j.index]? = some record) : record.messageId ≠ row.id := by
  intro own
  obtain ⟨t', j', ended, index⟩ := (consumed_iff run j.index).mp (h.2 j.index record there own)
  have job : (p.slot t).job = some j := by rw [live]; rfl
  have job' : (p.slot t').job = some j' := by rw [ended]; rfl
  obtain rfl := one_handler run t' t j' j job' job index
  rw [live] at ended
  cases ended

theorem consumed_grows (run : (consumers config approx).Reach (handedOnce config) deployed p)
    (later : (consumers config approx).Reach (handedOnce config) p q) :
    ∀ i ∈ p.shared.consumed, i ∈ q.shared.consumed := by
  intro i there
  obtain ⟨t, j, ended, index⟩ := (consumed_iff run i).mp there
  have settled : (p.slot t).isSettled = true := by rw [ended]; rfl
  have same := (Machine.reach_keep later t).2 settled
  exact (consumed_iff (run.trans later) i).mpr ⟨t, j, same.trans ended, index⟩

theorem Consumed.keep {s s' : Inbox} (h : Consumed row.id s) (log : s.log <+: s'.log)
    (consumed : ∀ i ∈ s.consumed, i ∈ s'.consumed) (same : copies row.id s' = copies row.id s) :
    Consumed row.id s' := by
  refine ⟨by rw [same]; exact h.1, fun i r there own => ?_⟩
  obtain ⟨extra, grown⟩ := log
  by_cases old : i < s.log.length
  · rw [← grown, List.getElem?_append_left old] at there
    exact consumed i (h.2 i r there own)
  · have none : extra.filter (fun r => r.messageId == row.id) = [] := by
      have all := same
      rw [copies, copies, ← grown, List.filter_append] at all
      exact List.append_right_eq_self.mp all
    rw [← grown, List.getElem?_append_right (Nat.le_of_not_lt old)] at there
    have other := List.filter_eq_nil_iff.mp none r (List.mem_of_getElem? there)
    exact absurd (by simpa using own) other

/-- A message that has ended stays as it is. -/
theorem ended_stays (identified : row.id ≠ "")
    (past : (consumers config approx).History (once config toISOString row) deployed entries p)
    (consumed : Consumed row.id p.shared) {later : List (Entry Inbox Effect.Answer Err)}
    (run : (consumers config approx).History (once config toISOString row) p later q) :
    Consumed row.id q.shared ∧ Unmoved config.kafka.consumerGroup row.id p.shared q.shared := by
  induction run with
  | refl => exact ⟨consumed, .refl ..⟩
  | @step later q q' a before ok st ih =>
    obtain ⟨closed, unmoved⟩ := ih
    have here := past.trans before
    have reach := (once_handed here).reach
    have one : (consumers config approx).Reach (handedOnce config) q q' := .step .refl ok.1 st
    have still : Unmoved config.kafka.consumerGroup row.id q.shared q'.shared := by
      refine unmoved_step identified here ok.1 st ?_ ?_
      · exact fun t j e k record live there _ => closed.others reach live there
      · intro topic partition key value headers same own
        subst same
        obtain ⟨r, hr⟩ := List.exists_mem_of_ne_nil _ closed.1
        obtain ⟨there, named⟩ := List.mem_filter.mp hr
        exact (ok.2 own).2 r there (by simpa using named)
    exact ⟨closed.keep (log_kept one) (consumed_grows reach one) still.copies, unmoved.trans still⟩

theorem relayed_id {topic : String} {partition : Nat} {key : Option String} {value : Option Body}
    {headers : Headers} (s : Inbox)
    (relayed : Relayed toISOString (relayMessage row) (.produce topic partition key value headers)) :
    (s.produced topic partition key value headers).messageId = row.id := by
  obtain ⟨place, relayed⟩ := relayed
  cases relayed
  rfl

theorem attendsTo_once (nodup : (rows.map (·.id)).Nodup) (mine : row ∈ rows)
    (ok : attendsTo config toISOString rows p a) : once config toISOString row p a := by
  refine ⟨ok.1, ?_⟩
  cases a with
  | env x =>
    cases x with
    | produce topic partition key value headers =>
      intro own
      obtain ⟨row', there, relayed, first⟩ := ok.2 _ rfl
      obtain rfl := List.inj_on_of_nodup_map nodup there mine ((relayed_id _ relayed).symm.trans own)
      exact ⟨relayed, first⟩
    | _ => trivial
  | _ => trivial

theorem attends_to (mine : row ∈ rows) (ok : attends config toISOString row p a) :
    attendsTo config toISOString rows p a := by
  refine ⟨ok.1.1, fun x same => ?_⟩
  subst same
  have relayed := ok.2 x rfl
  cases x with
  | produce topic partition key value headers =>
    exact ⟨row, mine, relayed, (ok.1.2 (relayed_id _ relayed)).2⟩
  | _ =>
    obtain ⟨place, relayed⟩ := relayed
    cases relayed

/-- A message that is not there does not come while others are handled. -/
theorem unpublished_stays (identified : row.id ≠ "") (other : row'.id ≠ row.id)
    (past : (consumers config approx).History (once config toISOString row) deployed entries p)
    (nowhere : copies row.id p.shared = []) {later : List (Entry Inbox Effect.Answer Err)}
    (run : (consumers config approx).History (attends config toISOString row') p later q) :
    (consumers config approx).History (once config toISOString row) p later q ∧
      copies row.id q.shared = [] := by
  induction run with
  | refl => exact ⟨.refl, nowhere⟩
  | @step later q q' a before ok st ih =>
    obtain ⟨history, none⟩ := ih
    have elsewhere : ∀ topic partition key value headers,
        a = .env (.produce topic partition key value headers) →
          (q.shared.produced topic partition key value headers).messageId ≠ row.id := by
      intro topic partition key value headers same own
      exact other ((relayed_id q.shared (ok.2 _ same)).symm.trans own)
    have ok' : once config toISOString row q a := by
      refine ⟨ok.1.1, ?_⟩
      cases a with
      | env x =>
        cases x with
        | produce topic partition key value headers =>
          exact fun own => absurd own (elsewhere _ _ _ _ _ rfl)
        | _ => trivial
      | _ => trivial
    have still : Unmoved config.kafka.consumerGroup row.id q.shared q'.shared :=
      unmoved_step identified (past.trans history) ok'.1 st
        (fun t j e k record live there _ => copies_nil none (List.mem_of_getElem? there)) elsewhere
    exact ⟨history.step ok' st, still.copies.trans none⟩

theorem attempts_left (config : AppConfiguration) : 0 < attemptLimit config := by
  unfold attemptLimit
  omega

/-- The message of one row can be brought to its end, and is delivered where it is not there yet. -/
theorem one_ends (moderate : Moderate config) (identified : row.id ≠ "")
    (booked : row.topic = config.kafka.topics.booking)
    (past : (consumers config approx).History (once config toISOString row) deployed entries p) :
    ∃ later q, (consumers config approx).History (attends config toISOString row) p later q ∧
      Consumed row.id q.shared ∧ (copies row.id p.shared = [] →
        account config.kafka.consumerGroup row.id q.shared = ⟨true, 1, []⟩) := by
  obtain ⟨later, q, i, w, continues, tells, limited, final⟩ :=
    can_reach_end moderate identified booked past (follows_seen _)
  have run := (once_handed (past.trans continues.once)).reach
  refine ⟨later, q, continues.history, tells.consumed run final, fun nowhere => ?_⟩
  have untried : tries row.id entries = [] := by
    rcases told moderate identified past with unpublished | ⟨i, w, -, tells⟩
    · exact unpublished.tried
    · have count := tells.count
      rw [nowhere] at count
      cases count
  have ends := ends_of_final limited tells continues.follows final
  refine ends.sent ?_
  rw [ending_first (attempts_left config) (by rw [untried]; rfl)]

/-- All messages can be brought to their ends, and those that are not there yet are delivered. -/
theorem all_end (moderate : Moderate config) (nodup : (rows.map (·.id)).Nodup)
    (identified : ∀ row ∈ rows, row.id ≠ "")
    (booked : ∀ row ∈ rows, row.topic = config.kafka.topics.booking) {todo : List OutboxRow}
    (part : todo.Sublist rows)
    (past : ∀ row ∈ rows,
      (consumers config approx).History (once config toISOString row) deployed entries p) :
    ∃ later q, (consumers config approx).History (attendsTo config toISOString rows) p later q ∧
      ∀ row ∈ todo, Consumed row.id q.shared ∧ (copies row.id p.shared = [] →
        account config.kafka.consumerGroup row.id q.shared = ⟨true, 1, []⟩) := by
  induction todo generalizing entries p with
  | nil => exact ⟨[], p, .refl, fun row none => absurd none List.not_mem_nil⟩
  | cons row rest ih =>
    have mine : row ∈ rows := part.subset (List.mem_cons_self ..)
    obtain ⟨first, q, attended, ended, fresh⟩ :=
      one_ends moderate (identified row mine) (booked row mine) (past row mine)
    have begun := attended.mono fun _ _ ok => attends_to mine ok
    have past' : ∀ row' ∈ rows, (consumers config approx).History (once config toISOString row')
        deployed (entries ++ first) q := fun row' there =>
      (past row' there).trans (begun.mono fun _ _ ok => attendsTo_once nodup there ok)
    obtain ⟨last, q', run, ends⟩ := ih ((List.sublist_cons_self row rest).trans part) past'
    refine ⟨first ++ last, q', begun.trans run, fun row' there => ?_⟩
    rcases List.mem_cons.mp there with rfl | there
    · obtain ⟨closed, unmoved⟩ := ended_stays (identified row' mine) (past' row' mine) ended
        (run.mono fun _ _ ok => attendsTo_once nodup mine ok)
      exact ⟨closed, fun nowhere => unmoved.accounted.trans (fresh nowhere)⟩
    · have mine' : row' ∈ rows := part.subset (List.mem_cons_of_mem _ there)
      refine ⟨(ends row' there).1, fun nowhere => (ends row' there).2 ?_⟩
      have other : row.id ≠ row'.id := by
        have apart := (part.map (·.id)).nodup nodup
        rw [List.map_cons, List.nodup_cons] at apart
        exact fun same => apart.1 (same ▸ List.mem_map_of_mem there)
      exact (unpublished_stays (identified row' mine') other (past row' mine') nowhere attended).2

end Overbook.Notifications
