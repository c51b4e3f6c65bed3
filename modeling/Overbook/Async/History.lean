import Overbook.Async.Pool
import Overbook.Async.Trace

/-! The history of a run: every answer that a task was given, with the shared state before and
after it. What one task was answered is a run of its own program. -/
namespace Overbook.Async

namespace Prog

variable {E : Type} {A : E → Type} {ε α : Type}

/-- What is left of a program after these events. -/
inductive Leads (p : Prog E A ε α) : List (Event A ε) → Prog E A ε α → Prop where
  | here : Leads p [] p
  | on {e : E} {k : Except ε (A e) → Prog E A ε α} {events : List (Event A ε)}
      (r : Except ε (A e)) : Leads p events (call e k) → Leads p (events ++ [⟨e, r⟩]) (k r)

theorem Leads.runs {p q : Prog E A ε α} {events rest : List (Event A ε)} {o : Except ε α}
    (h : Leads p events q) (run : Runs q rest o) : Runs p (events ++ rest) o := by
  induction h generalizing rest with
  | here => exact run
  | on r _ ih =>
    rw [List.append_assoc]
    exact ih (.call run)

theorem Leads.awaits {p : Prog E A ε α} {events : List (Event A ε)} {e : E}
    {k : Except ε (A e) → Prog E A ε α} (h : Leads p events (call e k)) : Awaits p events e := by
  have on : ∀ {events : List (Event A ε)} {q : Prog E A ε α}, Leads p events q →
      ∀ {rest : List (Event A ε)} {e : E}, Awaits q rest e → Awaits p (events ++ rest) e := by
    intro events q leads
    induction leads with
    | here => exact fun waits => waits
    | on r _ ih =>
      intro rest e waits
      rw [List.append_assoc]
      exact ih (.there waits)
  rw [← List.append_nil events]
  exact on h .here

theorem Leads.only {P : E → Prop} {p q : Prog E A ε α} {events : List (Event A ε)}
    (h : Leads p events q) (only : p.Only P) : q.Only P := by
  induction h with
  | here => exact only
  | on r _ ih => exact ih.2 r

end Prog

variable {σ Job E : Type} {A : E → Type} {ε α Choice Ext : Type}

structure Entry (σ : Type) {E : Type} (A : E → Type) (ε : Type) where
  task : Tid
  effect : E
  answer : Except ε (A effect)
  before : σ
  after : σ

abbrev Entry.event (x : Entry σ A ε) : Prog.Event A ε := ⟨x.effect, x.answer⟩

def entriesOf (t : Tid) (entries : List (Entry σ A ε)) : List (Entry σ A ε) :=
  entries.filter fun x => x.task == t

def eventsOf (t : Tid) (entries : List (Entry σ A ε)) : List (Prog.Event A ε) :=
  (entriesOf t entries).map (·.event)

theorem entriesOf_own (entries : List (Entry σ A ε)) (x : Entry σ A ε) :
    entriesOf x.task (entries ++ [x]) = entriesOf x.task entries ++ [x] := by
  simp [entriesOf, List.filter_append]

theorem entriesOf_other {t : Tid} {x : Entry σ A ε} (ne : x.task ≠ t)
    (entries : List (Entry σ A ε)) : entriesOf t (entries ++ [x]) = entriesOf t entries := by
  simp [entriesOf, List.filter_append, ne]

theorem eventsOf_own (entries : List (Entry σ A ε)) (x : Entry σ A ε) :
    eventsOf x.task (entries ++ [x]) = eventsOf x.task entries ++ [x.event] := by
  simp [eventsOf, entriesOf_own]

theorem eventsOf_other {t : Tid} {x : Entry σ A ε} (ne : x.task ≠ t)
    (entries : List (Entry σ A ε)) : eventsOf t (entries ++ [x]) = eventsOf t entries := by
  rw [eventsOf, entriesOf_other ne, eventsOf]

theorem eventsOf_append (t : Tid) (entries later : List (Entry σ A ε)) :
    eventsOf t (entries ++ later) = eventsOf t entries ++ eventsOf t later := by
  simp [eventsOf, entriesOf, List.filter_append]

theorem eventsOf_cons (x : Entry σ A ε) (entries : List (Entry σ A ε)) :
    eventsOf x.task (x :: entries) = x.event :: eventsOf x.task entries := by
  simp [eventsOf, entriesOf]

theorem eventsOf_split {t : Tid} {entries : List (Entry σ A ε)} {before after : List (Prog.Event A ε)}
    {event : Prog.Event A ε} (h : eventsOf t entries = before ++ event :: after) :
    ∃ first x last, entries = first ++ x :: last ∧ x.task = t ∧ x.event = event ∧
      eventsOf t first = before ∧ eventsOf t last = after := by
  obtain ⟨mine, rest, split, earlier, later⟩ := List.map_eq_append_iff.mp h
  obtain ⟨x, after', rfl, here, late⟩ := List.map_eq_cons_iff.mp later
  obtain ⟨first, tail, whole, mine_first, tail_mine⟩ := List.filter_eq_append_iff.mp split
  obtain ⟨skipped, last, rfl, quiet, kept, last_mine⟩ := List.filter_eq_cons_iff.mp tail_mine
  have none : skipped.filter (fun y => y.task == t) = [] := List.filter_eq_nil_iff.mpr quiet
  refine ⟨first ++ skipped, x, last, by simp [whole], beq_iff_eq.mp kept, here, ?_, ?_⟩
  · rw [eventsOf, entriesOf, List.filter_append, none, List.append_nil, mine_first, earlier]
  · rw [eventsOf, entriesOf, last_mine, late]

namespace Machine

variable (m : Machine σ Job E A ε α Choice Ext)

def logged (p : Pool σ Job E A ε α) : Act Job Choice Ext → List (Entry σ A ε)
  | .step t c =>
    match p.slot t with
    | .live _ e _ =>
      match m.exec t p.shared e c with
      | some (s, r) => [⟨t, e, r, p.shared, s⟩]
      | none => []
    | _ => []
  | _ => []

/-- The pools that runs reach, as `Reach`, with their histories. -/
inductive History (Ok : Pool σ Job E A ε α → Act Job Choice Ext → Prop)
    (p : Pool σ Job E A ε α) : List (Entry σ A ε) → Pool σ Job E A ε α → Prop where
  | refl : History Ok p [] p
  | step {entries : List (Entry σ A ε)} {q q' : Pool σ Job E A ε α} {a : Act Job Choice Ext} :
      History Ok p entries q → Ok q a → m.step q a = some q' →
      History Ok p (entries ++ m.logged q a) q'

/- The pool after a list of actions and the history on the way, for replaying one run. -/
def replay (ok : Pool σ Job E A ε α → Act Job Choice Ext → Bool) (p : Pool σ Job E A ε α) :
    List (Act Job Choice Ext) → Option (List (Entry σ A ε) × Pool σ Job E A ε α)
  | [] => some ([], p)
  | a :: as =>
    if ok p a then
      (m.step p a).bind fun q => (replay ok q as).map fun x => (m.logged p a ++ x.1, x.2)
    else none

variable {m} {Ok : Pool σ Job E A ε α → Act Job Choice Ext → Prop} {p q : Pool σ Job E A ε α}
  {entries : List (Entry σ A ε)}

theorem logged_step {t : Tid} {c : Choice} {j : Job} {e : E} {k : Except ε (A e) → Prog E A ε α}
    {s : σ} {r : Except ε (A e)} (live : q.slot t = .live j e k)
    (answered : m.exec t q.shared e c = some (s, r)) :
    m.logged q (.step t c) = [⟨t, e, r, q.shared, s⟩] := by
  simp [logged, live, answered]

theorem eventsOf_logged {t : Tid} {a : Act Job Choice Ext} (other : a.task ≠ some t)
    (entries : List (Entry σ A ε)) :
    eventsOf t (entries ++ m.logged q a) = eventsOf t entries := by
  have quiet : m.logged q a = [] → eventsOf t (entries ++ m.logged q a) = eventsOf t entries :=
    fun none => by rw [none, List.append_nil]
  cases a with
  | step t' c =>
    cases slot : q.slot t' with
    | live j e k =>
      cases answered : m.exec t' q.shared e c with
      | none => exact quiet (by simp [logged, slot, answered])
      | some x =>
        rw [logged_step slot answered]
        exact eventsOf_other (fun same => other (congrArg some same)) entries
    | _ => exact quiet (by simp [logged, slot])
  | _ => exact quiet rfl

theorem History.reach (h : m.History Ok p entries q) : m.Reach Ok p q := by
  induction h with
  | refl => exact .refl
  | step _ ok st ih => exact .step ih ok st

theorem History.mono {Ok' : Pool σ Job E A ε α → Act Job Choice Ext → Prop}
    (le : ∀ q a, Ok q a → Ok' q a) (h : m.History Ok p entries q) : m.History Ok' p entries q := by
  induction h with
  | refl => exact .refl
  | step _ ok st ih => exact .step ih (le _ _ ok) st

theorem History.of_reach (h : m.Reach Ok p q) : ∃ entries, m.History Ok p entries q := by
  induction h with
  | refl => exact ⟨[], .refl⟩
  | step _ ok st ih =>
    obtain ⟨entries, history⟩ := ih
    exact ⟨_, history.step ok st⟩

theorem History.trans {r : Pool σ Job E A ε α} {later : List (Entry σ A ε)}
    (h : m.History Ok p entries q) (h' : m.History Ok q later r) :
    m.History Ok p (entries ++ later) r := by
  induction h' with
  | refl => simpa using h
  | step _ ok st ih =>
    rw [← List.append_assoc]
    exact ih.step ok st

/-- A replayed run is a history, when the check passes allowed actions only; it may use what the
actions keep. -/
theorem History.of_replay_keeping {I : Pool σ Job E A ε α → Prop}
    {ok : Pool σ Job E A ε α → Act Job Choice Ext → Bool}
    (kept : ∀ q a q', I q → ok q a = true → m.step q a = some q' → I q')
    (check : ∀ q a, I q → ok q a = true → Ok q a) {as : List (Act Job Choice Ext)}
    {r : Pool σ Job E A ε α} {past : List (Entry σ A ε)} (h : m.History Ok p past q) (start : I q)
    (run : m.replay ok q as = some (entries, r)) : m.History Ok p (past ++ entries) r ∧ I r := by
  induction as generalizing q past entries with
  | nil =>
    cases Option.some.inj run
    exact ⟨by simpa using h, start⟩
  | cons a as ih =>
    unfold replay at run
    split at run
    · rename_i fits
      obtain ⟨q', st, rest⟩ := Option.bind_eq_some_iff.mp run
      obtain ⟨⟨later, r'⟩, replayed, same⟩ := Option.map_eq_some_iff.mp rest
      cases same
      have whole := ih (h.step (check q a start fits) st) (kept q a q' start fits st) replayed
      rwa [List.append_assoc] at whole
    · cases run

theorem History.of_replay {ok : Pool σ Job E A ε α → Act Job Choice Ext → Bool}
    (check : ∀ q a, ok q a = true → Ok q a) {as : List (Act Job Choice Ext)}
    {r : Pool σ Job E A ε α} {past : List (Entry σ A ε)} (h : m.History Ok p past q)
    (run : m.replay ok q as = some (entries, r)) : m.History Ok p (past ++ entries) r :=
  (of_replay_keeping (I := fun _ => True) (fun _ _ _ _ _ _ => trivial) (fun q a _ => check q a) h
    trivial run).1

/-- Every entry is an answer that the environment gave to a live task, with what is before it as
the history so far, and the run goes on from there. -/
theorem History.split {first last : List (Entry σ A ε)} {x : Entry σ A ε}
    (h : m.History Ok p (first ++ x :: last) q) :
    ∃ r j k c, m.History Ok p first r ∧ r.shared = x.before ∧ r.slot x.task = .live j x.effect k ∧
      Ok r (.step x.task c) ∧ m.exec x.task x.before x.effect c = some (x.after, x.answer) ∧
      m.Reach Ok r q := by
  generalize whole : first ++ x :: last = entries at h
  induction h generalizing last with
  | refl => simp at whole
  | @step entries r r' a before ok st ih =>
    have on : ∀ last', first ++ x :: last' = entries →
        ∃ r j k c, m.History Ok p first r ∧ r.shared = x.before ∧
          r.slot x.task = .live j x.effect k ∧ Ok r (.step x.task c) ∧
          m.exec x.task x.before x.effect c = some (x.after, x.answer) ∧ m.Reach Ok r r' := by
      intro last' part
      obtain ⟨r₀, j, k, c, past, here, live, fine, answered, rest⟩ := ih part
      exact ⟨r₀, j, k, c, past, here, live, fine, answered, rest.step ok st⟩
    have quiet : m.logged r a = [] → _ := fun none =>
      on last (by rw [whole, none, List.append_nil])
    cases steps_of_step st with
    | @step t c j e k s o live answered =>
      rw [logged_step live answered] at whole
      rcases List.eq_nil_or_concat last with rfl | ⟨last', y, rfl⟩
      · obtain ⟨rfl, same⟩ := List.append_inj' whole rfl
        cases List.singleton_inj.mp same
        exact ⟨r, j, k, c, before, rfl, live, ok, answered, Reach.step .refl ok st⟩
      · rw [List.concat_eq_append, ← List.cons_append, ← List.append_assoc] at whole
        exact on last' (List.append_inj' whole rfl).1
    | start => exact quiet rfl
    | kill => exact quiet rfl
    | env => exact quiet rfl

theorem History.answer {first last : List (Entry σ A ε)} {x : Entry σ A ε}
    (h : m.History Ok p (first ++ x :: last) q) :
    ∃ r j k c, m.History Ok p first r ∧ r.shared = x.before ∧ r.slot x.task = .live j x.effect k ∧
      Ok r (.step x.task c) ∧
      m.exec x.task x.before x.effect c = some (x.after, x.answer) := by
  obtain ⟨r, j, k, c, past, here, live, ok, answered, -⟩ := h.split
  exact ⟨r, j, k, c, past, here, live, ok, answered⟩

/-- The pool that an entry is answered in, and the rest of the run. -/
theorem History.since {first last : List (Entry σ A ε)} {x : Entry σ A ε}
    (h : m.History Ok p (first ++ x :: last) q) :
    ∃ r, m.History Ok p first r ∧ r.shared = x.before ∧ m.Reach Ok r q := by
  obtain ⟨r, _, _, _, past, here, _, _, _, rest⟩ := h.split
  exact ⟨r, past, here, rest⟩

theorem History.answered (h : m.History Ok p entries q) {x : Entry σ A ε} (hx : x ∈ entries) :
    ∃ r j k c, m.Reach Ok p r ∧ r.shared = x.before ∧ r.slot x.task = .live j x.effect k ∧
      Ok r (.step x.task c) ∧
      m.exec x.task x.before x.effect c = some (x.after, x.answer) := by
  obtain ⟨first, last, rfl⟩ := List.append_of_mem hx
  obtain ⟨r, j, k, c, before, rest⟩ := h.answer
  exact ⟨r, j, k, c, before.reach, rest⟩

/-- How far a task has come with its program. -/
def Tracks (m : Machine σ Job E A ε α Choice Ext) (events : List (Prog.Event A ε)) :
    Slot Job E A ε α → Prop
  | .idle => events = []
  | .live j e k => (m.code j).Leads events (.call e k)
  | .ended j r => (m.code j).Runs events r
  | .gone _ => True

theorem tracks_settle {t : Tid} {j : Job} {s : σ} {b : Prog E A ε α}
    {events : List (Prog.Event A ε)} (h : (m.code j).Leads events b) :
    m.Tracks events (m.settle t j s b).2 := by
  cases b with
  | done a =>
    have run := h.runs .done
    rwa [List.append_nil] at run
  | fail x =>
    have run := h.runs .fail
    rwa [List.append_nil] at run
  | call e k => exact h

/-- In a history from the start, what a task was answered is a run of its program. -/
theorem History.tracks {s : σ} (h : m.History Ok (.initial s) entries q) (t : Tid) :
    m.Tracks (eventsOf t entries) (q.slot t) := by
  induction h with
  | refl => rfl
  | @step entries r r' a before ok st ih =>
    have quiet : m.logged r a = [] → a.task ≠ some t →
        m.Tracks (eventsOf t (entries ++ m.logged r a)) (r'.slot t) := by
      intro none other
      rw [none, List.append_nil, steps_slot (steps_of_step st) other]
      exact ih
    cases steps_of_step st with
    | @start t' j idle ready =>
      by_cases same : t' = t
      · subst same
        rw [idle] at ih
        rw [put_self, show m.logged r (.start t' j) = [] from rfl, List.append_nil,
          show eventsOf t' entries = [] from ih]
        exact tracks_settle .here
      · exact quiet rfl fun eq => same (Option.some.inj eq)
    | @step t' c j e k s' o live answered =>
      rw [logged_step live answered]
      by_cases same : t' = t
      · subst same
        rw [live] at ih
        rw [put_self, eventsOf_own entries ⟨t', e, o, r.shared, s'⟩]
        exact tracks_settle (.on o ih)
      · rw [eventsOf_other (by exact same), put_of_ne (Ne.symm same)]
        exact ih
    | @kill t' j e k live =>
      by_cases same : t' = t
      · subst same
        simp [Tracks]
      · exact quiet rfl fun eq => same (Option.some.inj eq)
    | env => exact quiet rfl nofun

theorem History.runs {s : σ} {t : Tid} {j : Job} {r : Except ε α}
    (h : m.History Ok (.initial s) entries q) (ended : q.slot t = .ended j r) :
    (m.code j).Runs (eventsOf t entries) r := by
  have tracks := h.tracks t
  rwa [ended] at tracks

theorem Reach.allowed {s : σ} {P : Job → Prop} (h : m.Reach Ok (.initial s) q)
    (start : ∀ q t j, Ok q (.start t j) → P j) {t : Tid} {j : Job}
    (job : (q.slot t).job = some j) : P j := by
  induction h with
  | refl => cases job
  | @step r r' a before ok st ih =>
    cases steps_of_step st with
    | @start t' j' idle ready =>
      by_cases same : t = t'
      · subst same
        rw [put_self, settle_job] at job
        cases job
        exact start r t j ok
      · rw [put_of_ne same] at job
        exact ih job
    | @step t' c j' e k s' o live answered =>
      by_cases same : t = t'
      · subst same
        rw [put_self, settle_job] at job
        rw [live] at ih
        exact ih job
      · rw [put_of_ne same] at job
        exact ih job
    | @kill t' j' e k live =>
      by_cases same : t = t'
      · subst same
        simp only [Function.update_self, Slot.job] at job
        rw [live] at ih
        exact ih job
      · simp only [Function.update_of_ne same] at job
        exact ih job
    | env => exact ih job

theorem Reach.only {s : σ} {P : Job → E → Prop} (h : m.Reach Ok (.initial s) q)
    (code : ∀ j, (m.code j).Only (P j)) {t : Tid} {j : Job} {e : E}
    {k : Except ε (A e) → Prog E A ε α} (live : q.slot t = .live j e k) : P j e := by
  obtain ⟨entries, history⟩ := History.of_reach h
  have tracks := history.tracks t
  rw [live] at tracks
  exact (Prog.Leads.only tracks (code j)).1

end Machine

end Overbook.Async
