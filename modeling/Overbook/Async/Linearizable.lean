import Overbook.Async.Pool

/-! Linearizability of the calls of a pool. A run is kept with the pools it has passed, so that
real time can be spoken of; a log that only live calls are entered into is an order that agrees
with real time. -/
namespace Overbook.Async

section Sequential

variable {S Op Ret : Type} (serve : S → Op → S × Ret)

def served (s : S) : List (Tid × Op) → S
  | [] => s
  | (_, op) :: rest => served (serve s op).1 rest

/-- What the sequential object answers to each of them at its turn. -/
def replies (s : S) : List (Tid × Op) → List (Tid × Ret)
  | [] => []
  | (t, op) :: rest => (t, (serve s op).2) :: replies (serve s op).1 rest

variable {serve}

theorem served_snoc (s : S) (order : List (Tid × Op)) (t : Tid) (op : Op) :
    served serve s (order ++ [(t, op)]) = (serve (served serve s order) op).1 := by
  induction order generalizing s with
  | nil => rfl
  | cons x order ih => exact ih _

theorem replies_snoc (s : S) (order : List (Tid × Op)) (t : Tid) (op : Op) :
    replies serve s (order ++ [(t, op)]) =
      replies serve s order ++ [(t, (serve (served serve s order) op).2)] := by
  induction order generalizing s with
  | nil => rfl
  | cons x order ih => exact congrArg _ (ih _)

theorem replies_calls (s : S) (order : List (Tid × Op)) :
    (replies serve s order).map Prod.fst = order.map Prod.fst := by
  induction order generalizing s with
  | nil => rfl
  | cons x order ih => exact congrArg _ (ih _)

end Sequential

variable {σ Job E : Type} {A : E → Type} {ε α Choice Ext : Type}

namespace Machine

variable (m : Machine σ Job E A ε α Choice Ext)

/-- A run together with the pools it has passed before the last one, in their order. -/
inductive Path (Ok : Pool σ Job E A ε α → Act Job Choice Ext → Prop) (p : Pool σ Job E A ε α) :
    List (Pool σ Job E A ε α) → Pool σ Job E A ε α → Prop where
  | refl : Path Ok p [] p
  | step {past : List (Pool σ Job E A ε α)} {q q' : Pool σ Job E A ε α} {a : Act Job Choice Ext} :
      Path Ok p past q → Ok q a → m.step q a = some q' → Path Ok p (past ++ [q]) q'

variable {m} {Ok : Pool σ Job E A ε α → Act Job Choice Ext → Prop}
  {p q : Pool σ Job E A ε α} {past : List (Pool σ Job E A ε α)}

theorem Path.reach (h : m.Path Ok p past q) : m.Reach Ok p q := by
  induction h with
  | refl => exact .refl
  | step _ ok st ih => exact .step ih ok st

theorem Path.of_reach (h : m.Reach Ok p q) : ∃ past, m.Path Ok p past q := by
  induction h with
  | refl => exact ⟨[], .refl⟩
  | step _ ok st ih =>
    obtain ⟨past, path⟩ := ih
    exact ⟨_, path.step ok st⟩

theorem Path.passed (h : m.Path Ok p past q) {r : Pool σ Job E A ε α} (hr : r ∈ past) :
    m.Reach Ok r q := by
  induction h with
  | refl => cases hr
  | step _ ok st ih =>
    rcases List.mem_append.mp hr with hr | hr
    · exact .step (ih hr) ok st
    · cases List.mem_singleton.mp hr
      exact .step .refl ok st

theorem Reach.jobs {jobs : Tid → Option Job} {s : σ} (h : m.Reach Ok (.initial s) q)
    (started : ∀ r a, Ok r a → ∀ t j, a = .start t j → jobs t = some j) :
    ∀ t j, (q.slot t).job = some j → jobs t = some j := by
  induction h with
  | refl => exact fun t j none => nomatch none
  | @step r r' a _ ok st ih =>
    intro t j job
    have st := steps_of_step st
    by_cases other : a.task = some t
    · cases st with
      | start idle ready =>
        cases Option.some.inj other
        rw [put_self, settle_job] at job
        exact started _ _ ok t j (by rw [Option.some.inj job])
      | step live answered =>
        cases Option.some.inj other
        rw [put_self, settle_job] at job
        exact ih t j (by rw [live]; exact job)
      | kill live =>
        cases Option.some.inj other
        exact ih t j (by rw [live]; simpa [Slot.job] using job)
      | env => cases other
    · rw [steps_slot st other] at job
      exact ih t j job

theorem Reach.started {t : Tid} {j : Job} (h : m.Reach Ok p q) (idle : p.slot t = .idle)
    (job : (q.slot t).job = some j) :
    ∃ r, m.Reach Ok p r ∧ r.slot t = .idle ∧ m.ready r.shared j = true := by
  induction h with
  | refl =>
    rw [idle] at job
    cases job
  | @step r r' a run ok st ih =>
    have st := steps_of_step st
    by_cases other : a.task = some t
    · cases st with
      | start unstarted ready =>
        cases Option.some.inj other
        rw [put_self, settle_job] at job
        cases Option.some.inj job
        exact ⟨r, run, unstarted, ready⟩
      | step live answered =>
        cases Option.some.inj other
        rw [put_self, settle_job] at job
        exact ih (by rw [live]; exact job)
      | kill live =>
        cases Option.some.inj other
        exact ih (by rw [live]; simpa [Slot.job] using job)
      | env => cases other
    · rw [steps_slot st other] at job
      exact ih job

theorem started_job {r r' : Pool σ Job E A ε α} {a : Act Job Choice Ext}
    (st : m.step r a = some r') (t : Tid) (j : Job) (start : a = .start t j) :
    (r'.slot t).job = some j := by
  subst start
  cases steps_of_step st with
  | start idle ready => rw [put_self, settle_job]

theorem Path.assigned {p' : Pool σ Job E A ε α} (h : m.Path Ok p past q) (later : m.Reach Ok q p') :
    m.Path (fun r a => Ok r a ∧ ∀ t j, a = .start t j → (p'.slot t).job = some j) p past q := by
  induction h with
  | refl => exact .refl
  | @step past r r' a _ ok st ih =>
    have keep : ∀ t j, a = .start t j → (p'.slot t).job = some j :=
      fun t j start => (reach_keep later t).1 j (started_job st t j start)
    exact .step (ih (.trans (.step .refl ok st) later)) ⟨ok, keep⟩ st

theorem Reach.assigned {p' : Pool σ Job E A ε α} (h : m.Reach Ok p q) (later : m.Reach Ok q p') :
    m.Reach (fun r a => Ok r a ∧ ∀ t j, a = .start t j → (p'.slot t).job = some j) p q := by
  obtain ⟨past, path⟩ := Path.of_reach h
  exact (path.assigned later).reach

end Machine

/-- The calls in one order, each once, in which every answer is that of the sequential object
that starts at `s`. Calls without an answer may be part of it. -/
structure Linearizes {S Op Ret : Type} (call : Job → Option Op) (answer : Except ε α → Option Ret)
    (serve : S → Op → S × Ret) (s : S) (p : Pool σ Job E A ε α) (order : List (Tid × Op)) :
    Prop where
  once : (order.map Prod.fst).Nodup
  calls : ∀ t op, (t, op) ∈ order → ∃ j, (p.slot t).job = some j ∧ call j = some op
  answered : ∀ t j r op ret, p.slot t = .ended j r → call j = some op → answer r = some ret →
    (t, ret) ∈ replies serve s order

/-- A call that had settled before another one was started comes first. -/
def InRealTime {Op : Type} (past : List (Pool σ Job E A ε α)) (order : List (Tid × Op)) : Prop :=
  ∀ q ∈ past, ∀ t t', (q.slot t).isSettled = true → q.slot t' = .idle → t ∈ order.map Prod.fst →
    t' ∈ order.map Prod.fst → [t, t'].Sublist (order.map Prod.fst)

variable {m : Machine σ Job E A ε α Choice Ext}
  {Ok : Pool σ Job E A ε α → Act Job Choice Ext → Prop} {p q : Pool σ Job E A ε α}
  {past : List (Pool σ Job E A ε α)}

/-- The rule for linearization points: a log that each step may extend, by calls that have been
started and have not settled yet, ends up as an order that agrees with real time. -/
theorem logged_order {Op : Type} {J : Pool σ Job E A ε α → List (Tid × Op) → Prop}
    (path : m.Path Ok p past q) (start : J p [])
    (known : ∀ r log, J r log → ∀ x ∈ log, r.slot x.1 ≠ .idle)
    (step : ∀ r r' a log, m.Reach Ok p r → J r log → Ok r a → m.step r a = some r' →
      ∃ new, J r' (log ++ new) ∧ ∀ x ∈ new, (r.slot x.1).isSettled = false) :
    ∃ order, J q order ∧ InRealTime past order := by
  -- at each pool that was passed, the order splits into what was in the log and what came later
  suffices cut : ∃ order, J q order ∧ ∀ r ∈ past, ∃ old new, order = old ++ new ∧
      (∀ x ∈ old, r.slot x.1 ≠ .idle) ∧ ∀ x ∈ new, (r.slot x.1).isSettled = false by
    obtain ⟨order, hj, split⟩ := cut
    refine ⟨order, hj, fun r hr t t' settled idle ht ht' => ?_⟩
    obtain ⟨old, new, rfl, early, late⟩ := split r hr
    rw [List.map_append] at ht ht' ⊢
    have first : t ∈ old.map Prod.fst := by
      refine (List.mem_append.mp ht).resolve_right fun mem => ?_
      obtain ⟨x, hx, rfl⟩ := List.mem_map.mp mem
      exact Bool.false_ne_true ((late x hx).symm.trans settled)
    have second : t' ∈ new.map Prod.fst := by
      refine (List.mem_append.mp ht').resolve_left fun mem => ?_
      obtain ⟨x, hx, rfl⟩ := List.mem_map.mp mem
      exact early x hx idle
    exact (List.singleton_sublist.mpr first).append (List.singleton_sublist.mpr second)
  induction path with
  | refl => exact ⟨[], start, fun _ hr => nomatch hr⟩
  | @step past r r' a path ok st ih =>
    obtain ⟨log, hj, split⟩ := ih
    obtain ⟨new, hj', live⟩ := step r r' a log path.reach hj ok st
    refine ⟨log ++ new, hj', fun r₀ hr₀ => ?_⟩
    rcases List.mem_append.mp hr₀ with hr₀ | hr₀
    · obtain ⟨old, rest, rfl, early, late⟩ := split r₀ hr₀
      refine ⟨old, rest ++ new, List.append_assoc .., early, fun x hx => ?_⟩
      rcases List.mem_append.mp hx with hx | hx
      · exact late x hx
      · by_contra settled
        have kept := (Machine.reach_keep (path.passed hr₀) x.1).2 (by simpa using settled)
        exact settled (by rw [← kept]; exact live x hx)
    · cases List.mem_singleton.mp hr₀
      exact ⟨log, new, rfl, known _ log hj, live⟩

end Overbook.Async
