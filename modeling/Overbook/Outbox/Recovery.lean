import Mathlib.Algebra.Order.BigOperators.Group.List
import Overbook.Async.Progress
import Overbook.Bookings.Events
import Overbook.Outbox.Patience

/-! Recovery. Once publishing succeeds again, drains that run one after the other empty the
backlog, and every event reaches the broker: late, never lost. -/
namespace Overbook

open Async Prog ReadCommitted Kafka Store

def backlog (rows : Rows OutboxRow) : Nat := rows.committed.countP fun r => r.status == .pending

/-- Nobody holds an outbox row, every pending row is due, and the replica is not draining. -/
structure Calm (replica : Replica) (s : Store) : Prop where
  unlocked : ∀ c ∈ s.outbox, c.holder = none
  due : ∀ c ∈ s.outbox, c.committed.status = .pending → c.committed.availableAt ≤ s.clock
  resting : s.running replica = false

def Passes (s s' : Store) : Prop := ∃ d, s' = { s with clock := s.clock + d }

/- The calls are left alone: time passes and dead connections are noticed. -/
def waiting (_ : ApiPool) : Act Job Choice Ext → Prop
  | .env _ => True
  | _ => False

/- One drain runs by itself, and nothing fails. -/
def alone (config : OutboxConfig) (replica : Replica) (t : Tid) (p : ApiPool) :
    Act Job Choice Ext → Prop
  | .start t' j => t' = t ∧ j = .drainOnce config replica
  | .step t' c => t' = t ∧ ∀ j e k, p.slot t = .live j e k → ¬ Failing e c
  | .env (.tick _) => True
  | _ => False

/-- After a wait, `n` drains of one replica have run one after the other. -/
inductive Recovers (partition : String → String → Nat) (config : OutboxConfig) (replica : Replica)
    (p : ApiPool) : Nat → ApiPool → Prop
  | wait {q : ApiPool} : (api partition).Reach waiting p q → Calm replica q.shared →
      Recovers partition config replica p 0 q
  | drain {n : Nat} {q q' : ApiPool} {t : Tid} {j : Job} {r : Except Err Response} :
      Recovers partition config replica p n q → q.slot t = .idle →
      (api partition).Reach (alone config replica t) q q' → q'.slot t = .ended j r →
      Recovers partition config replica p (n + 1) q'

structure Emptied (clock : Time) (old rows : Rows OutboxRow) : Prop where
  unlocked : ∀ c ∈ rows, c.holder = none
  due : ∀ c ∈ rows, c.committed.status = .pending → c.committed.availableAt ≤ clock
  fewer : backlog rows < backlog old ∨ backlog rows = 0

variable {partition : String → String → Nat} {replica : Replica} {t : Tid} {s₀ s s' : Store}

/-- The logic of a drain that runs by itself from `s₀` on: others rely on nothing, it relies on
everything, and at each of its awaits some answer is possible. -/
def solo (partition : String → String → Nat) (replica : Replica) (t₀ : Tid) (s₀ : Store) :
    Logic (api partition) where
  Inv _ := True
  Frame t s s' := t = t₀ → Passes s s'
  Fresh t s := t = t₀ → Passes s₀ s
  Here t e s := t = t₀ → ∃ c s' r, ¬ Failing e c ∧ exec partition t s e c = some (s', r)
  Ok t _ e c := t = t₀ ∧ ¬ Failing e c
  refl _ _ _ := ⟨0, rfl⟩
  trans _ _ _ _ h h' same := by
    obtain ⟨d, rfl⟩ := h same
    obtain ⟨d', rfl⟩ := h' same
    exact ⟨d + d', by simp [Nat.add_assoc]⟩
  fresh _ _ _ h h' same := by
    obtain ⟨d, rfl⟩ := h same
    obtain ⟨d', rfl⟩ := h' same
    exact ⟨d + d', by simp [Nat.add_assoc]⟩
  Ended t s := t = t₀ → Emptied s.clock s₀.outbox s.outbox ∧ s.running replica = false
  ended _ _ _ h f same := by
    obtain ⟨⟨unlocked, due, fewer⟩, resting⟩ := h same
    obtain ⟨d, rfl⟩ := f same
    refine ⟨⟨unlocked, fun c hc pending => ?_, fewer⟩, resting⟩
    exact Nat.le_trans (due c hc pending) (Nat.le_add_right ..)

def Yields {α : Type} (P : α → Store → Prop) : Except Err α → Store → Prop
  | .ok a, s => P a s
  | .error _, _ => False

theorem solo_ask {e : Effect} {J : Store → Prop} {P : e.Answer → Store → Prop} (hj : J s)
    (steady : ∀ s s', J s → Passes s s' → J s')
    (possible : ∀ s, J s → ∃ c s' r, ¬ Failing e c ∧ exec partition t s e c = some (s', r))
    (next : ∀ s c s' a, J s → exec partition t s e c = some (s', .ok a) → P a s')
    (ne : ∀ id, e ≠ .delCache id := by intro _ h; cases h) :
    (solo partition replica t s₀).Safe t (ask e) (Yields P) s := by
  apply Logic.Safe.await
  intro s₁ f _
  have h₁ := steady s s₁ hj (f rfl)
  refine ⟨fun _ => possible s₁ h₁, fun c s₂ r ok he => ⟨⟨trivial, fun t' other same => ?_⟩, ?_⟩⟩
  · exact absurd same other
  · cases r with
    | ok a => exact next s₁ c s₂ a h₁ he
    | error x => exact ok.2 (failing_of_error he ne)

theorem yields_bind {α β : Type} {p : Service α} {f : α → Service β} {P : α → Store → Prop}
    {Q : Except Err β → Store → Prop} (h : (solo partition replica t s₀).Safe t p (Yields P) s)
    (rest : ∀ a s, P a s → (solo partition replica t s₀).Safe t (f a) Q s) :
    (solo partition replica t s₀).Safe t (p >>= f) Q s := by
  apply Logic.Safe.bind
  refine h.mono fun r s' hr => ?_
  cases r with
  | ok a => exact rest a s' hr
  | error x => exact hr.elim

/-- Within its transaction, begun when all pending rows were due. -/
structure Within (t : Tid) (clock : Time) (rows : Rows OutboxRow) (s : Store) : Prop where
  outbox : s.outbox = rows
  active : s.active t = true
  begun : clock ≤ (s.tx t).startedAt
  inserted : (s.tx t).outbox = []
  clock : clock ≤ s.clock

theorem within_passes {clock : Time} {rows : Rows OutboxRow} (h : Within t clock rows s)
    (passes : Passes s s') : Within t clock rows s' := by
  obtain ⟨d, rfl⟩ := passes
  exact ⟨h.outbox, h.active, h.begun, h.inserted, Nat.le_trans h.clock (Nat.le_add_right ..)⟩

theorem solo_refresh {J : Store → Prop} (hj : J s) (steady : ∀ s s', J s → Passes s s' → J s')
    (act : ∀ s, J s → s.active t = true) :
    (solo partition replica t s₀).Safe t refreshPendingGauge (Yields fun _ => J) s := by
  unfold refreshPendingGauge
  refine yields_bind (P := fun _ => J) ?_ fun _ _ h => h
  refine solo_ask hj steady (fun s h => ?_) fun s c s' n h he => ?_
  · exact ⟨.ok, s, _, id, by simp only [exec, act s h]; rfl⟩
  · cases countPending_ok he
    exact h

/-- The query always has an answer: the eligible rows in the order of their creation, cut off
at the limit. -/
theorem selects_possible {limit : Int} (size : 0 ≤ limit) {eligible : List OutboxRow}
    (nodup : eligible.Nodup) : ∃ rows, Selects limit eligible rows := by
  let before : OutboxRow → OutboxRow → Bool := fun a b => decide (a.createdAt ≤ b.createdAt)
  have perm := List.mergeSort_perm eligible before
  have sorted : (eligible.mergeSort before).Pairwise fun a b => a.createdAt ≤ b.createdAt := by
    have trans : ∀ a b c, before a b = true → before b c = true → before a c = true := by
      intro a b c hab hbc
      simp only [before, decide_eq_true_eq] at *
      exact Nat.le_trans hab hbc
    have total : ∀ a b, (before a b || before b a) = true := fun a b => by
      simpa [before] using Nat.le_total a.createdAt b.createdAt
    have pairs := List.pairwise_mergeSort trans total eligible
    exact pairs.imp fun h => by simpa [before] using h
  have split := List.take_append_drop limit.toNat (eligible.mergeSort before)
  have take := List.take_sublist limit.toNat (eligible.mergeSort before)
  refine ⟨(eligible.mergeSort before).take limit.toNat, (perm.nodup_iff.mpr nodup).sublist take,
    fun r hr => perm.mem_iff.mp (take.subset hr), sorted.sublist take, ?_, fun r hr => ?_⟩
  · rw [List.length_take]
    omega
  · have mem := perm.mem_iff.mpr hr
    rw [← split] at mem sorted
    rcases List.mem_append.mp mem with mem | mem
    · exact .inl mem
    · have cut : limit.toNat < (eligible.mergeSort before).length := by
        by_contra short
        rw [List.drop_eq_nil_of_le (by omega)] at mem
        cases mem
      refine .inr ⟨?_, fun q hq => (List.pairwise_append.mp sorted).2.2 q hq r mem⟩
      rw [List.length_take]
      omega

theorem countP_lt {α : Type} {p q : α → Bool} {l : List α} (le : ∀ x ∈ l, p x → q x)
    {y : α} (hy : y ∈ l) (yes : q y = true) (no : p y = false) : l.countP p < l.countP q := by
  induction l with
  | nil => cases hy
  | cons x l ih =>
    have tail : ∀ z ∈ l, p z → q z := fun z hz => le z (List.mem_cons_of_mem x hz)
    simp only [List.countP_cons]
    rcases List.mem_cons.mp hy with rfl | hy
    · have rest := List.countP_mono_left tail
      rw [yes, no]
      simp only [Bool.false_eq_true, if_false, if_true]
      omega
    · have rest := ih tail hy
      have first := le x (List.mem_cons_self ..)
      cases hp : p x with
      | false => simp only [Bool.false_eq_true, if_false]; omega
      | true => rw [first hp]; omega

/-- The rows that a drain has selected leave the backlog; the others stay. -/
theorem emptied_mark {rows : Rows OutboxRow} {ids : List Uuid} {now clock : Time} {t : Tid}
    {p : Cell OutboxRow → Bool} (unlocked : ∀ c ∈ rows, c.holder = none)
    (due : ∀ c ∈ rows, c.committed.status = .pending → c.committed.availableAt ≤ clock)
    (some : ∃ c ∈ rows, c.committed.status = .pending ∧ c.committed.id ∈ ids) :
    Emptied clock rows (Rows.commit t
      ((rows.write t p id).write t (among ids) (publishedPatch.apply now))) := by
  have final : Rows.commit t ((rows.write t p id).write t (among ids) (publishedPatch.apply now)) =
      rows.map fun c =>
        ⟨if among ids c then publishedPatch.apply now c.committed else c.committed, none⟩ := by
    simp only [Rows.commit, Rows.write, List.map_map]
    refine List.map_congr_left fun c hc => ?_
    obtain ⟨v, holder⟩ := c
    cases unlocked _ hc
    by_cases hp : p ⟨v, none⟩ <;> by_cases ha : v.id ∈ ids <;>
      simp [Cell.commit, Cell.heldBy, Cell.view, Cell.write, among, hp, ha]
  rw [final]
  refine ⟨fun c hc => ?_, fun c hc pending => ?_, .inl ?_⟩
  · obtain ⟨d, _, rfl⟩ := List.mem_map.mp hc
    rfl
  · obtain ⟨d, hd, rfl⟩ := List.mem_map.mp hc
    by_cases ha : among ids d = true
    · simp [ha, publishedPatch, OutboxPatch.apply] at pending
    · simp only [ha] at pending ⊢
      exact due d hd pending
  · obtain ⟨c, hc, pending, mem⟩ := some
    simp only [backlog, Rows.committed, List.countP_map]
    refine countP_lt (fun d _ hd => ?_) hc (by simp [pending]) ?_
    · by_cases ha : among ids d = true
      · simp [ha, publishedPatch, OutboxPatch.apply] at hd
      · simpa [ha] using hd
    · have ha : among ids c = true := by simpa [among] using mem
      simp [ha, publishedPatch, OutboxPatch.apply]

theorem emptied_none {rows : Rows OutboxRow} {clock : Time} {t : Tid} {p : Cell OutboxRow → Bool}
    (unlocked : ∀ c ∈ rows, c.holder = none)
    (none : ∀ c ∈ rows, c.committed.status ≠ .pending) :
    Emptied clock rows (Rows.commit t (rows.write t p id)) := by
  have final : Rows.commit t (rows.write t p id) = rows := by
    simp only [Rows.commit, Rows.write, List.map_map]
    refine (List.map_congr_left fun c hc => ?_).trans (List.map_id rows)
    obtain ⟨v, holder⟩ := c
    cases unlocked _ hc
    by_cases hp : p ⟨v, .none⟩ <;> simp [Cell.commit, Cell.heldBy, Cell.view, Cell.write, hp]
  rw [final]
  refine ⟨unlocked, fun c hc pending => absurd pending (none c hc), .inr ?_⟩
  rw [backlog, Rows.committed, List.countP_map, List.countP_eq_zero]
  intro c hc
  simpa using none c hc

structure Marked (t : Tid) (clock : Time) (old : Rows OutboxRow) (s : Store) : Prop where
  within : Within t clock s.outbox s
  emptied : Emptied clock old (Rows.commit t s.outbox)

theorem marked_passes {clock : Time} {old : Rows OutboxRow} (h : Marked t clock old s)
    (passes : Passes s s') : Marked t clock old s' := by
  have within := within_passes h.within passes
  obtain ⟨d, rfl⟩ := passes
  exact ⟨within, h.emptied⟩

theorem solo_batch {config : OutboxConfig} {clock : Time} {rows : Rows OutboxRow}
    (limit : 0 < config.batchSize) (nodup : (rows.map fun c => c.committed.id).Nodup)
    (unlocked : ∀ c ∈ rows, c.holder = none)
    (due : ∀ c ∈ rows, c.committed.status = .pending → c.committed.availableAt ≤ clock)
    (h : Within t clock rows s) :
    (solo partition replica t s₀).Safe t (drainBatch config)
      (Yields fun _ => Marked t clock rows) s := by
  have eligible_iff : ∀ {s}, Within t clock rows s → ∀ c ∈ rows,
      s.eligible t c = true ↔ c.committed.status = .pending := by
    intro s w c hc
    have now : s.now t = (s.tx t).startedAt := by simp [Store.now, w.active]
    have free : c.free t = true := by simp [Cell.free, unlocked c hc]
    simp only [eligible, now, free, Bool.and_true, Bool.and_eq_true, beq_iff_eq, decide_eq_true_eq]
    exact ⟨fun h => h.1, fun h => ⟨h, Nat.le_trans (due c hc h) w.begun⟩⟩
  have done : ∀ {n : Nat} {s}, Marked t clock rows s →
      (solo partition replica t s₀).Safe t (do refreshPendingGauge; pure n)
        (Yields fun _ => Marked t clock rows) s := by
    intro n s marked
    refine yields_bind (P := fun _ => Marked t clock rows) ?_ fun _ _ h => h
    exact solo_refresh marked (fun _ _ => marked_passes) fun _ h => h.within.active
  unfold drainBatch
  refine yields_bind (P := fun picked s => ∃ s₁, Within t clock rows s₁ ∧
      Selects config.batchSize ((s₁.outbox.filter (s₁.eligible t)).map (·.committed)) picked ∧
      Within t clock (rows.write t (s₁.picks t picked) id) s) ?_ ?_
  · refine solo_ask h (fun _ _ => within_passes) (fun s h => ?_) fun s c s' picked h he => ?_
    · have distinct : ((s.outbox.filter (s.eligible t)).map (·.committed)).Nodup := by
        rw [h.outbox]
        have sub := (List.filter_sublist (p := s.eligible t) (l := rows)).map fun c => c.committed.id
        refine List.Nodup.of_map (·.id) ?_
        rw [List.map_map]
        exact nodup.sublist sub
      obtain ⟨picked, selects⟩ := selects_possible (Int.le_of_lt limit) distinct
      have size : 0 ≤ config.batchSize := Int.le_of_lt limit
      exact ⟨.rows picked, _, _, id, by simp only [exec, h.active, size, selects]; rfl⟩
    · obtain ⟨-, act, sel, rfl⟩ := selectPending_ok he
      refine ⟨s, h, sel, ⟨by rw [← h.outbox]; rfl, ?_, ?_, ?_, h.clock⟩⟩
      · exact active_iff.mpr (by rw [setTx_self]; exact active_iff.mp act)
      · rw [setTx_self]; exact h.begun
      · rw [setTx_self]; exact h.inserted
  · rintro picked s₂ ⟨s₁, w₁, sel, w₂⟩
    rw [w₁.outbox] at sel
    cases picked with
    | nil =>
      refine done ⟨⟨rfl, w₂.active, w₂.begun, w₂.inserted, w₂.clock⟩, ?_⟩
      rw [w₂.outbox]
      refine emptied_none unlocked fun c hc pending => ?_
      -- a pending row is eligible, and the query would have returned a row
      have mem : c.committed ∈ (rows.filter (s₁.eligible t)).map (·.committed) :=
        List.mem_map_of_mem (List.mem_filter.mpr ⟨hc, (eligible_iff w₁ c hc).mpr pending⟩)
      obtain ⟨-, -, -, -, complete⟩ := sel
      rcases complete _ mem with mem | ⟨full, -⟩
      · cases mem
      · simp only [List.length_nil] at full
        omega
    | cons row rest =>
      obtain ⟨c, hc, eq, elig⟩ := selects_eligible (s := { s₁ with outbox := rows }) sel row
        (List.mem_cons_self ..)
      have pending := (eligible_iff w₁ c hc).mp elig
      refine yields_bind (P := fun r s => r = .ok () ∧
        Within t clock (rows.write t (s₁.picks t (row :: rest)) id) s) ?_ ?_
      · apply Logic.Safe.outcome
        unfold publishBatch
        split
        · exact ⟨rfl, w₂⟩
        · refine (solo_ask w₂ (fun _ _ => within_passes) (fun s h => ?_) fun s c s' u h he => ?_).mono
            (Q := Yields fun _ => Within t clock (rows.write t (s₁.picks t (row :: rest)) id))
            fun r s h => ?_
          · exact ⟨.ok, _, _, id, rfl⟩
          · obtain ⟨-, -, rfl⟩ | ⟨-, -, refused, -⟩ := sendBatch_cases he
            · exact ⟨h.outbox, h.active, h.begun, h.inserted, h.clock⟩
            · cases refused
          · cases r with
            | ok u => exact ⟨rfl, h⟩
            | error x => exact h.elim
      · rintro _ s₃ ⟨rfl, w₃⟩
        refine yields_bind (P := fun _ => Marked t clock rows) ?_ fun _ _ => done
        refine solo_ask w₃ (fun _ _ => within_passes) (fun s h => ?_) fun s c s' u h he => ?_
        · have free : s.outbox.freeFor t (among ((row :: rest).map (·.id))) = true := by
            rw [h.outbox, Rows.freeFor, List.all_eq_true]
            intro d hd
            obtain ⟨d, old, rfl⟩ := List.mem_map.mp hd
            split <;> simp [Cell.free, Cell.write, unlocked d old]
          exact ⟨.ok, _, _, id, by simp only [exec, h.active, free]; rfl⟩
        · obtain ⟨-, -, rfl⟩ := updateOutbox_ok he
          refine ⟨⟨rfl, h.active, h.begun, h.inserted, h.clock⟩, ?_⟩
          have marked : Emptied clock rows (Rows.commit t
              ((rows.write t (s₁.picks t (row :: rest)) id).write t
                (among ((row :: rest).map (·.id))) (publishedPatch.apply (s.now t)))) :=
            emptied_mark unlocked due ⟨_, hc, pending, by rw [eq]; exact List.mem_cons_self ..⟩
          rw [← h.outbox] at marked
          exact marked

/-- A drain that runs by itself in a calm state returns, and has sent what it selected. -/
theorem solo_drain {config : OutboxConfig} (limit : 0 < config.batchSize) (wf : WF s₀)
    (calm : Calm replica s₀) (fresh : s₀.tx t = {}) (passes : Passes s₀ s) :
    (solo partition replica t s₀).Safe t (drainOnce config replica)
      (Yields fun _ s => Emptied s.clock s₀.outbox s.outbox ∧ s.running replica = false) s := by
  have nodup : (s₀.outbox.map fun c => c.committed.id).Nodup := by
    have ids := wf.outbox.nodup
    rwa [Rows.committed, List.map_map] at ids
  -- the drain begins with the rows of `s₀`, and at a later time
  let Begun : Store → Prop := fun s => s.outbox = s₀.outbox ∧ s₀.clock ≤ s.clock ∧ s.tx t = {}
  let Sent : Store → Prop := fun s => s₀.clock ≤ s.clock ∧ Emptied s₀.clock s₀.outbox s.outbox
  have begun_later : ∀ s s', Begun s → Passes s s' → Begun s' := by
    rintro s s' ⟨outbox, clock, tx⟩ ⟨d, rfl⟩
    exact ⟨outbox, Nat.le_trans clock (Nat.le_add_right ..), tx⟩
  have body : ∀ s, Begun s → (solo partition replica t s₀).Safe t (transaction (drainBatch config))
      (Yields fun _ => Sent) s := by
    intro s begun
    unfold transaction
    apply Logic.Safe.handle
    suffices whole : (solo partition replica t s₀).Safe t
        (do ask .beginTx; let result ← drainBatch config; ask .commitTx; pure result)
        (Yields fun _ => Sent) s by
      refine whole.mono fun r s' hr => ?_
      cases r with
      | ok n => exact hr
      | error x => exact hr.elim
    refine yields_bind (P := fun _ => Within t s₀.clock s₀.outbox) ?_ fun _ s₁ w₁ => ?_
    · refine solo_ask begun begun_later (fun s h => ?_) fun s c s' u h he => ?_
      · have idle : s.active t = false := by simp [Store.active, h.2.2]
        exact ⟨.ok, _, _, id, by simp only [exec, idle]; rfl⟩
      · obtain ⟨-, rfl⟩ := begin_ok he
        have self : (s.beginTx t).tx t = { status := .active, startedAt := s.clock } := setTx_self ..
        exact ⟨h.1, active_iff.mpr (by rw [self]), by rw [self]; exact h.2.1, by rw [self], h.2.1⟩
    · refine yields_bind (solo_batch limit nodup calm.unlocked calm.due w₁) fun n s₂ m₂ => ?_
      refine yields_bind (P := fun _ => Sent) ?_ fun _ _ h => h
      refine solo_ask m₂ (fun _ _ => marked_passes) (fun s h => ?_) fun s c s' u h he => ?_
      · exact ⟨.ok, _, _, id, by simp only [exec, h.within.active]; rfl⟩
      · obtain ⟨-, rfl⟩ := commit_ok he
        refine ⟨h.within.clock, ?_⟩
        have rows : (s.commitTx t).outbox = Rows.commit t s.outbox := by
          simp [commitTx, h.within.inserted, Rows.insert]
        rw [rows]
        exact h.emptied
  unfold drainOnce
  refine yields_bind (P := fun running s => running = false ∧ Begun s) ?_ ?_
  · have start : Begun s ∧ s.running replica = false := by
      refine ⟨begun_later s₀ s ⟨rfl, Nat.le_refl _, fresh⟩ passes, ?_⟩
      obtain ⟨d, rfl⟩ := passes
      exact calm.resting
    refine solo_ask (J := fun s => Begun s ∧ s.running replica = false) start
      (fun s s' h p => ⟨begun_later s s' h.1 p, ?_⟩) (fun s h => ?_) ?_
    · obtain ⟨d, rfl⟩ := p
      exact h.2
    · exact ⟨.ok, _, _, id, rfl⟩
    · intro s c s' running h he
      cases c <;> simp only [exec, Option.some.injEq, Prod.mk.injEq, reduceCtorEq] at he
      obtain ⟨rfl, same⟩ := he
      exact ⟨by rw [← Except.ok.inj same]; exact h.2, h.1⟩
  · rintro _ s₁ ⟨rfl, begun⟩
    apply Logic.Safe.ensure
    refine (body s₁ begun).mono fun r s₂ h₂ => ?_
    cases r with
    | error x => exact h₂.elim
    | ok n =>
      refine (solo_ask (P := fun _ s => Emptied s.clock s₀.outbox s.outbox ∧ s.running replica = false)
        h₂ (fun s s' h p => ?_) (fun s h => ?_) fun s c s' u h he => ?_).mono fun u s₃ h₃ => ?_
      · obtain ⟨d, rfl⟩ := p
        exact ⟨Nat.le_trans h.1 (Nat.le_add_right ..), h.2⟩
      · exact ⟨.ok, _, _, id, rfl⟩
      · cases c <;> simp only [exec, Option.some.injEq, Prod.mk.injEq, reduceCtorEq] at he
        obtain ⟨rfl, -⟩ := he
        refine ⟨⟨h.2.unlocked, fun c hc pending => ?_, h.2.fewer⟩, Function.update_self ..⟩
        exact Nat.le_trans (h.2.due c hc pending) h.1
      · cases u with
        | ok u => exact h₃
        | error x => exact h₃.elim

theorem solo_other {α : Type} {t' : Tid} (ne : t' ≠ t) (p : Service α)
    {P : Except Err α → Store → Prop} :
    (solo partition replica t s₀).Safe t' p (fun r s => t' = t → P r s) s := by
  cases p with
  | done a => exact fun same => absurd same ne
  | fail x => exact fun same => absurd same ne
  | call e k =>
    exact fun s₁ _ _ => ⟨fun same => absurd same ne, fun _ _ _ ok _ => absurd ok.1 ne⟩

theorem solo_verified {config : OutboxConfig} (limit : 0 < config.batchSize) (wf : WF s₀)
    (calm : Calm replica s₀) (fresh : s₀.tx t = {}) :
    Logic.Verified (solo partition replica t s₀) (alone config replica t) fun t' _ _ s => t' = t →
      Emptied s.clock s₀.outbox s.outbox ∧ s.running replica = false where
  allowed _ _ _ j e k ok live := by
    obtain ⟨rfl, fine⟩ := ok
    exact ⟨rfl, fine j e k live⟩
  code p t' j ok _ _ h := by
    obtain ⟨rfl, rfl⟩ := ok
    refine (yields_bind (solo_drain limit wf calm fresh (h rfl)) fun n s hs => ?_).mono
      (Q := Yields fun _ s => Emptied s.clock s₀.outbox s.outbox ∧ s.running replica = false)
      fun r s hr _ => ?_
    · exact hs
    · cases r with
      | ok a => exact hr
      | error x => exact hr.elim
  finish _ _ _ _ _ _ := ⟨trivial, fun _ _ _ => ⟨0, rfl⟩⟩
  ext p x s' ok _ h := by
    cases x with
    | tick d => cases Option.some.inj h; exact ⟨trivial, fun _ _ => ⟨d, rfl⟩⟩
    | abortTx t' => exact ok.elim
  ended _ _ _ _ _ h := h
  gone _ _ _ _ _ ok _ _ := ok.elim

variable {config : OutboxConfig} {p q q' : ApiPool}

theorem solo_sound (idle : q.slot t = .idle) : Logic.Sound (solo partition replica t q.shared)
    (fun t' _ _ s => t' = t →
      Emptied s.clock q.shared.outbox s.outbox ∧ s.running replica = false) q := by
  have others : ∀ t' slot, q.slot t' = slot → slot ≠ .idle → t' ≠ t := by
    rintro t' slot here alive rfl
    exact alive (here.symm.trans idle)
  constructor
  · trivial
  · exact fun _ _ _ => ⟨0, rfl⟩
  · exact fun t' j e k live => solo_other (others t' _ live nofun) _
  · exact fun t' j r ended same => absurd same (others t' _ ended nofun)
  · exact fun t' j gone same => absurd same (others t' _ gone nofun)

/-- One more drain makes the backlog smaller, until it is empty. -/
theorem drain_empties (limit : 0 < config.batchSize)
    (past : (api partition).Reach everything.Ok migrated q) (calm : Calm replica q.shared)
    (idle : q.slot t = .idle) (run : (api partition).Reach (alone config replica t) q q') {j : Job}
    {r : Except Err Response} (ended : q'.slot t = .ended j r) : Calm replica q'.shared ∧
      (backlog q'.shared.outbox < backlog q.shared.outbox ∨ backlog q'.shared.outbox = 0) := by
  have sound := api_sound past
  have fresh := (sound.fresh t idle).tx
  have after := Logic.reach_sound (solo_verified limit sound.inv.wf calm fresh) (solo_sound idle) run
  obtain ⟨⟨unlocked, due, fewer⟩, resting⟩ := after.ended t j r ended rfl
  exact ⟨⟨unlocked, due, resting⟩, fewer⟩

theorem drain_possible (limit : 0 < config.batchSize)
    (past : (api partition).Reach everything.Ok migrated q) (calm : Calm replica q.shared)
    (idle : q.slot t = .idle) : ∃ q' j r, (api partition).Reach (alone config replica t) q q' ∧
      q'.slot t = .ended j r := by
  have sound := api_sound past
  have fresh := (sound.fresh t idle).tx
  have enabled : ∀ (p : ApiPool) e k, p.slot t = .live (.drainOnce config replica) e k →
      (solo partition replica t q.shared).Here t e p.shared →
      ∃ c s r, alone config replica t p (.step t c) ∧
        exec partition t p.shared e c = some (s, r) := by
    intro p e k live here
    obtain ⟨c, s, r, fine, answered⟩ := here rfl
    refine ⟨c, s, r, ⟨rfl, fun j' e' k' live' => ?_⟩, answered⟩
    cases live.symm.trans live'
    exact fine
  have verified : Logic.Verified (solo partition replica t q.shared) _ _ :=
    solo_verified limit sound.inv.wf calm fresh
  obtain ⟨q', r, run, ended⟩ := Logic.start_ends verified enabled (solo_sound idle) idle rfl ⟨rfl, rfl⟩
  exact ⟨q', _, r, run, ended⟩

def holders (s : Store) : List Tid := s.outbox.filterMap fun c => c.holder.map (·.1)

theorem mem_holders : t ∈ holders s ↔ ∃ c ∈ s.outbox, c.heldBy t = true := by
  simp only [holders, List.mem_filterMap, Option.map_eq_some_iff, Prod.exists, exists_and_right,
    exists_eq_right]
  constructor
  · rintro ⟨c, hc, v, held⟩
    exact ⟨c, hc, by simp [Cell.heldBy, held]⟩
  · rintro ⟨c, hc, held⟩
    exact ⟨c, hc, _, Cell.heldBy_iff.mp held⟩

theorem abort_holders {t' : Tid} (wf : WF s) (h : t' ∈ holders (s.abort t)) :
    t' ∈ holders s ∧ t' ≠ t := by
  obtain ⟨c, hc, held⟩ := mem_holders.mp h
  unfold Store.abort at hc
  split at hc
  · obtain ⟨d, hd, rfl⟩ := List.mem_map.mp hc
    have ne : t' ≠ t := by
      rintro rfl
      rw [Cell.rollback_heldBy_self] at held
      cases held
    rw [Cell.rollback_heldBy_other ne] at held
    exact ⟨mem_holders.mpr ⟨d, hd, held⟩, ne⟩
  · rename_i idle
    refine ⟨mem_holders.mpr ⟨c, hc, held⟩, ?_⟩
    rintro rfl
    have none := wf.quietOutbox t' (by simpa using idle)
    exact List.not_mem_nil (none ▸ Rows.mem_held.mpr ⟨hc, held⟩)

/-- The connections that hold rows end, one after the other. -/
theorem locks_end {ts : List Tid} {p : ApiPool} (wf : WF p.shared)
    (all : ∀ t ∈ holders p.shared, t ∈ ts) : ∃ q, (api partition).Reach waiting p q ∧
      WF q.shared ∧ holders q.shared = [] ∧ q.shared.running = p.shared.running := by
  induction ts generalizing p with
  | nil =>
    have none := List.eq_nil_iff_forall_not_mem.mpr fun t ht => List.not_mem_nil (all t ht)
    exact ⟨p, .refl, wf, none, rfl⟩
  | cons t ts ih =>
    have st : (api partition).step p (.env (.abortTx t)) = some ⟨p.shared.abort t, p.slot⟩ := rfl
    have fewer : ∀ t' ∈ holders (p.shared.abort t), t' ∈ ts := by
      intro t' h
      obtain ⟨old, ne⟩ := abort_holders wf h
      exact (List.mem_cons.mp (all t' old)).resolve_left ne
    obtain ⟨q, run, wf', none, running⟩ :=
      ih (p := ⟨p.shared.abort t, p.slot⟩) (abort_wf wf) fewer
    have ok : waiting p (.env (.abortTx t)) := trivial
    refine ⟨q, .trans (.step .refl ok st) run, wf', none, running.trans ?_⟩
    simp only [Store.abort]
    split <;> rfl

/-- Whatever has happened, the calm comes: locks end with their connections, backoffs run out. -/
theorem calm_comes (p : ApiPool) (wf : WF p.shared) (resting : p.shared.running replica = false) :
    ∃ q, (api partition).Reach waiting p q ∧ Calm replica q.shared := by
  have ends : ∃ q, (api partition).Reach waiting p q ∧ _ := locks_end wf fun _ h => h
  obtain ⟨q, run, _, none, running⟩ := ends
  let wait : Time := (q.shared.outbox.map (·.committed.availableAt)).sum
  have st : (api partition).step q (.env (.tick wait)) =
      some ⟨{ q.shared with clock := q.shared.clock + wait }, q.slot⟩ := rfl
  have ok : waiting q (.env (.tick wait)) := trivial
  refine ⟨_, .step run ok st, ⟨fun c hc => ?_, fun c hc _ => ?_, ?_⟩⟩
  · cases holder : c.holder with
    | none => rfl
    | some h =>
      have mem : h.1 ∈ holders q.shared := List.mem_filterMap.mpr ⟨c, hc, by rw [holder]; rfl⟩
      rw [none] at mem
      cases mem
  · refine Nat.le_trans ?_ (Nat.le_add_left ..)
    exact List.single_le_sum (fun _ _ => Nat.zero_le _) _ (List.mem_map_of_mem hc)
  · rw [← resting, ← running]

variable {allowed : Job → Prop} {maxAttempts : Int}

theorem waiting_patient (q : ApiPool) (a : Act Job Choice Ext) (h : waiting q a) :
    (patient allowed maxAttempts).Ok q a := by
  cases a with
  | env x => cases x <;> trivial
  | _ => exact h.elim

theorem alone_patient (limit : maxAttempts ≤ config.maxAttempts) (q : ApiPool)
    (a : Act Job Choice Ext) (h : alone config replica t q a) :
    (patient allowed maxAttempts).Ok q a := by
  cases a with
  | start t' j =>
    obtain ⟨rfl, rfl⟩ := h
    exact limit
  | step t' c =>
    intro j e k live
    obtain ⟨rfl, fine⟩ := h
    have fine := fine j e k live
    cases e <;> cases c <;> first | trivial | exact absurd trivial fine
  | kill t' => exact h.elim
  | env x =>
    cases x with
    | tick d => trivial
    | abortTx t' => exact h.elim

theorem Recovers.patient {n : Nat} (limit : maxAttempts ≤ config.maxAttempts)
    (h : Recovers partition config replica p n q) :
    (api partition).Reach (patient allowed maxAttempts).Ok p q := by
  induction h with
  | wait run _ => exact run.mono waiting_patient
  | drain _ _ run _ ih => exact ih.trans (run.mono (alone_patient limit))

theorem patient_everything (h : (api partition).Reach (patient allowed maxAttempts).Ok p q) :
    (api partition).Reach everything.Ok p q := by
  refine h.mono fun q a ok => ?_
  cases a with
  | start => trivial
  | step => exact fun _ _ _ _ => trivial
  | kill => trivial
  | env x => cases x <;> trivial

theorem waiting_backlog (run : (api partition).Reach waiting p q) :
    backlog q.shared.outbox = backlog p.shared.outbox := by
  induction run with
  | refl => rfl
  | @step q q' a _ ok st ih =>
    cases Machine.steps_of_step st with
    | env happened =>
      rw [← ih, backlog, (ext_tables happened).2, backlog]
    | start => exact ok.elim
    | step => exact ok.elim
    | kill => exact ok.elim

theorem recovers_empties {n : Nat} (size : 0 < config.batchSize)
    (limit : maxAttempts ≤ config.maxAttempts)
    (past : (api partition).Reach (patient allowed maxAttempts).Ok migrated p)
    (h : Recovers partition config replica p n q) : Calm replica q.shared ∧
      backlog q.shared.outbox ≤ backlog p.shared.outbox - n := by
  induction h with
  | wait run calm => exact ⟨calm, by rw [waiting_backlog run]; exact Nat.le_refl _⟩
  | @drain n q q' t j r before idle run ended ih =>
    have here := patient_everything (past.trans (before.patient limit))
    obtain ⟨calm, fewer⟩ := drain_empties size here ih.1 idle run ended
    exact ⟨calm, by omega⟩

theorem recovers_possible (size : 0 < config.batchSize) (limit : maxAttempts ≤ config.maxAttempts)
    (past : (api partition).Reach (patient allowed maxAttempts).Ok migrated p)
    (resting : p.shared.running replica = false) (n : Nat) :
    ∃ q, Recovers partition config replica p n q := by
  induction n with
  | zero =>
    obtain ⟨q, run, calm⟩ := calm_comes p (api_sound past).inv.wf resting
    exact ⟨q, .wait run calm⟩
  | succ n ih =>
    obtain ⟨q, before⟩ := ih
    have here := past.trans (before.patient limit)
    obtain ⟨t, idle⟩ := here.idle_after
    obtain ⟨q', j, r, run, ended⟩ := drain_possible size (patient_everything here)
      (recovers_empties size limit past before).1 (idle t (Nat.le_refl t))
    exact ⟨q', .drain before (idle t (Nat.le_refl t)) run ended⟩

theorem pending_or_sent (past : (api partition).Reach (patient allowed maxAttempts).Ok migrated p)
    {r : OutboxRow} (hr : r ∈ p.shared.outbox.committed) :
    r.status = .pending ∨ relayMessage r ∈ p.shared.kafka := by
  obtain ⟨c, hc, rfl⟩ := List.mem_map.mp hr
  have kept := (none_failed past c hc).1
  cases status : c.committed.status with
  | pending => exact .inl rfl
  | published => exact .inr ((backed (patient_everything past)).committed hc status)
  | failed => exact absurd status kept

/-- As long as no publish that fails takes a row to the limit: every row that the broker does not
have is pending, and however long the outage was, drains that run once it is over, as many as there
are rows, publish the event of every booking, and they can always run. -/
theorem late_never_lost (partition : String → String → Nat) (allowed : Job → Prop)
    (maxAttempts : Int) (p : ApiPool)
    (past : (api partition).Reach (patient allowed maxAttempts).Ok migrated p) :
    (∀ r ∈ p.shared.outbox.committed, relayMessage r ∉ p.shared.kafka → r.status = .pending) ∧
    ∀ (config : OutboxConfig) (replica : Replica), 0 < config.batchSize →
      maxAttempts ≤ config.maxAttempts → p.shared.running replica = false →
      (∀ n, ∃ q, Recovers partition config replica p n q) ∧
      ∀ n q, Recovers partition config replica p n q → backlog p.shared.outbox ≤ n →
        (∀ r ∈ q.shared.outbox.committed, relayMessage r ∈ q.shared.kafka) ∧
        ((∀ j, allowed j → j.OutboxOnly) → ∀ b ∈ p.shared.bookings,
          ∃ m ∈ q.shared.kafka, m.value.bookingId = b.id) := by
  refine ⟨fun r hr missing => (pending_or_sent past hr).resolve_right missing, ?_⟩
  intro config replica size limit resting
  refine ⟨recovers_possible size limit past resting, fun n q recovered enough => ?_⟩
  have here := past.trans (recovered.patient limit)
  have empty : backlog q.shared.outbox = 0 := by
    have fewer := (recovers_empties size limit past recovered).2
    omega
  have sent : ∀ r ∈ q.shared.outbox.committed, relayMessage r ∈ q.shared.kafka := by
    intro r hr
    refine (pending_or_sent here hr).resolve_left fun pending => ?_
    have none := List.countP_eq_zero.mp empty r hr
    simp [pending] at none
  refine ⟨sent, fun mode b hb => ?_⟩
  have outboxOnly : ∀ j, (patient allowed maxAttempts).allowed j → j.OutboxOnly := by
    intro j h
    cases j with
    | book config eventId dto context => exact mode _ h
    | _ => trivial
  have later := (api_grows past (recovered.patient limit)).bookings.subset hb
  obtain ⟨e, he, event, -⟩ := forall₂_mem_left (paired outboxOnly here) later
  obtain ⟨r, hr, rfl⟩ := List.mem_map.mp he
  exact ⟨relayMessage r, sent r hr, event.bookingId⟩

/- The row of the booking after `n` failed publishes, each at time 0. -/
def rowAfter (n : Nat) : OutboxRow :=
  { id := "m", aggregateType := "booking", aggregateId := "b", eventType := bookingConfirmed
    topic := "booking.events", messageKey := "e"
    payload := ⟨"b", "e", "user-1", 1, "show", 0, none⟩
    status := if 10 ≤ n then .failed else .pending
    attempts := n, availableAt := if n = 0 then 0 else backoffMs n
    publishedAt := none, lastError := if n = 0 then none else some lost.message, createdAt := 0 }

/- The drain of task `n + 2` selects the row, and the broker refuses it. -/
def refusedDrain (config : OutboxConfig) (n : Nat) : List (Act Job Choice Ext) :=
  .start (n + 2) (.drainOnce config 0) :: [Choice.ok, .ok, .rows [rowAfter n], .refused [], .time 0,
    .ok, .ok, .ok].map (.step (n + 2))

/- One booking, and then the broker is down for ten drains of the default configuration. -/
def longOutage : List (Act Job Choice Ext) :=
  oneBooking ++ .env (.tick 60000) :: (List.range 10).flatMap (refusedDrain {})

/-- After the tenth failed publish the event of a committed booking is given up: the broker
does not have it, and no drain will select it. -/
theorem outage_gives_up : ∃ p : ApiPool, (api fun _ _ => 0).Reach outboxOnly.Ok migrated p ∧
    (∃ b ∈ p.shared.bookings, b.id = "b") ∧ p.shared.kafka = [] ∧
    ∃ r ∈ p.shared.outbox.committed, r.payload.bookingId = "b" ∧ r.status = .failed := by
  have replay : (((api fun _ _ => 0).run migrated longOutage).map fun p =>
      (p.shared.bookings.map (·.id), p.shared.kafka.length,
        p.shared.outbox.committed.map fun r => (r.payload.bookingId, r.status))) =
      some (["b"], 0, [("b", .failed)]) := by decide +kernel
  obtain ⟨p, hp, seen⟩ := Option.map_eq_some_iff.mp replay
  obtain ⟨bookings, rest⟩ := Prod.mk.inj seen
  obtain ⟨kafka, rows⟩ := Prod.mk.inj rest
  refine ⟨p, any_run hp fun t j start => ?_, ?_, List.length_eq_zero_iff.mp kafka, ?_⟩
  · simp only [longOutage, oneBooking, refusedDrain, List.mem_append, List.mem_cons,
      List.not_mem_nil, or_false, reduceCtorEq, false_or, Act.start.injEq, List.mem_flatMap,
      List.mem_map, and_false, exists_false] at start
    rcases start with (⟨-, rfl⟩ | ⟨-, rfl⟩) | ⟨n, -, -, rfl⟩
    · trivial
    · exact ⟨rfl, rfl⟩
    · trivial
  · have mem : "b" ∈ p.shared.bookings.map (·.id) := by rw [bookings]; exact List.mem_singleton_self _
    obtain ⟨b, hb, id⟩ := List.mem_map.mp mem
    exact ⟨b, hb, id⟩
  · have mem : ("b", OutboxStatus.failed) ∈
        p.shared.outbox.committed.map fun r => (r.payload.bookingId, r.status) := by
      rw [rows]; exact List.mem_singleton_self _
    obtain ⟨r, hr, eq⟩ := List.mem_map.mp mem
    exact ⟨r, hr, congrArg Prod.fst eq, congrArg Prod.snd eq⟩

def patientAct (maxAttempts : Int) (p : ApiPool) : Act Job Choice Ext → Bool
  | .step t (.refused _) => (p.shared.outbox.held t).all fun c =>
      decide ((c.committed.attempts : Int) + 1 < maxAttempts)
  | _ => true

theorem patient_run {as : List (Act Job Choice Ext)}
    (h : (api partition).runChecked (patientAct maxAttempts) migrated as = some p)
    (ok : ∀ t j, .start t j ∈ as → (patient allowed maxAttempts).allowed j) :
    (api partition).Reach (patient allowed maxAttempts).Ok migrated p := by
  refine .of_checked h fun a ha q passed => ?_
  cases a with
  | start t j => exact ok t j ha
  | step t c =>
    intro j e k _
    cases c with
    | refused parts =>
      have less := List.all_eq_true.mp passed
      cases e <;> first | trivial | exact fun c hc => by simpa using less c hc
    | _ => cases e <;> trivial
  | kill t => trivial
  | env x => cases x <;> trivial

theorem late_never_lost_refused : ∃ p : ApiPool, backlog p.shared.outbox = 1 ∧
    (∀ r ∈ p.shared.outbox.committed, relayMessage r ∉ p.shared.kafka → r.status = .pending) ∧
    ∀ (config : OutboxConfig) (replica : Replica), 0 < config.batchSize →
      (10 : Int) ≤ config.maxAttempts → p.shared.running replica = false →
      (∀ n, ∃ q, Recovers (fun _ _ => 0) config replica p n q) ∧
      ∀ n q, Recovers (fun _ _ => 0) config replica p n q → backlog p.shared.outbox ≤ n →
        (∀ r ∈ q.shared.outbox.committed, relayMessage r ∈ q.shared.kafka) ∧
        ((∀ j : Job, j.OutboxOnly → j.OutboxOnly) → ∀ b ∈ p.shared.bookings,
          ∃ m ∈ q.shared.kafka, m.value.bookingId = b.id) := by
  have replay : (((api fun _ _ => 0).runChecked (patientAct 10) migrated
      (oneBooking ++ refusedDrain {} 0)).map fun p => backlog p.shared.outbox) = some 1 := by
    decide +kernel
  obtain ⟨p, hp, one⟩ := Option.map_eq_some_iff.mp replay
  refine ⟨p, one, late_never_lost (fun _ _ => 0) Job.OutboxOnly 10 p (patient_run hp ?_)⟩
  intro t j start
  simp only [oneBooking, refusedDrain, List.mem_append, List.mem_cons, List.not_mem_nil, or_false,
    reduceCtorEq, false_or, Act.start.injEq, List.mem_map, and_false, exists_false] at start
  rcases start with (⟨-, rfl⟩ | ⟨-, rfl⟩) | ⟨-, rfl⟩
  · trivial
  · exact ⟨rfl, rfl⟩
  · exact Int.le_refl 10

end Overbook
