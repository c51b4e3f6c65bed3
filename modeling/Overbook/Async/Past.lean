import Overbook.Async.History

/-! What a program asks, in view of what it has been answered so far. The rules need nothing of
the state that programs share; a history carries them over to the tasks of a pool. -/
namespace Overbook.Async

namespace Prog

variable {E : Type} {A : E → Type} {ε α β : Type}

/-- After the events `past` the program asks only for what `asks` allows, and ends as `ends`
allows, as long as every answer is `fine`. -/
def Heeds (fine : Event A ε → Prop) (asks : List (Event A ε) → E → Prop)
    (ends : List (Event A ε) → Except ε α → Prop) : List (Event A ε) → Prog E A ε α → Prop
  | past, done a => ends past (.ok a)
  | past, fail x => ends past (.error x)
  | past, call e k =>
    asks past e ∧ ∀ r, fine ⟨e, r⟩ → (k r).Heeds fine asks ends (past ++ [⟨e, r⟩])

variable {fine : Event A ε → Prop} {asks : List (Event A ε) → E → Prop}
  {past events : List (Event A ε)} {e : E}

theorem Heeds.mono {ends ends' : List (Event A ε) → Except ε α → Prop} {p : Prog E A ε α}
    (h : p.Heeds fine asks ends past) (weaker : ∀ past r, ends past r → ends' past r) :
    p.Heeds fine asks ends' past := by
  induction p generalizing past with
  | done a => exact weaker past _ h
  | fail x => exact weaker past _ h
  | call e k ih => exact ⟨h.1, fun r ok => ih r (h.2 r ok)⟩

theorem heeds_ofExcept {ends : List (Event A ε) → Except ε α → Prop} {r : Except ε α}
    (h : ends past r) : (ofExcept r : Prog E A ε α).Heeds fine asks ends past := by
  cases r <;> exact h

theorem heeds_await {ends : List (Event A ε) → Except ε (A e) → Prop} (h : asks past e)
    (next : ∀ r, fine ⟨e, r⟩ → ends (past ++ [⟨e, r⟩]) r) :
    (await e : Prog E A ε (A e)).Heeds fine asks ends past :=
  ⟨h, fun r ok => heeds_ofExcept (next r ok)⟩

theorem heeds_bind {ends : List (Event A ε) → Except ε β → Prop} {p : Prog E A ε α}
    {f : α → Prog E A ε β}
    (h : p.Heeds fine asks
      (fun past r => match r with
        | .ok a => (f a).Heeds fine asks ends past
        | .error x => ends past (.error x)) past) :
    (p >>= f).Heeds fine asks ends past := by
  induction p generalizing past with
  | done a => exact h
  | fail x => exact h
  | call e k ih => exact ⟨h.1, fun r ok => ih r (h.2 r ok)⟩

theorem heeds_handle {ends : List (Event A ε) → Except ε α → Prop} {p : Prog E A ε α}
    {g : ε → Prog E A ε α}
    (h : p.Heeds fine asks
      (fun past r => match r with
        | .ok a => ends past (.ok a)
        | .error x => (g x).Heeds fine asks ends past) past) :
    (tryCatch p g).Heeds fine asks ends past := by
  induction p generalizing past with
  | done a => exact h
  | fail x => exact h
  | call e k ih => exact ⟨h.1, fun r ok => ih r (h.2 r ok)⟩

theorem heeds_outcome {ends : List (Event A ε) → Except ε (Except ε α) → Prop} {p : Prog E A ε α}
    (h : p.Heeds fine asks (fun past r => ends past (.ok r)) past) :
    p.outcome.Heeds fine asks ends past := by
  apply heeds_handle
  apply heeds_bind
  refine h.mono fun past r last => ?_
  cases r <;> exact last

theorem heeds_ensure {ends : List (Event A ε) → Except ε α → Prop} {p : Prog E A ε α}
    {q : Prog E A ε Unit}
    (h : p.Heeds fine asks
      (fun past r => q.Heeds fine asks (fun past u => ends past (u.bind fun _ => r)) past) past) :
    (p.ensure q).Heeds fine asks ends past := by
  apply heeds_bind
  apply heeds_outcome
  refine h.mono fun past r last => ?_
  apply heeds_bind
  refine last.mono fun past u final => ?_
  cases u with
  | ok u => exact heeds_ofExcept final
  | error x => exact final

theorem heeds_only {P : E → Prop} {J : List (Event A ε) → Prop} {p : Prog E A ε α} (only : p.Only P)
    (step : ∀ past e, J past → P e → asks past e ∧ ∀ r, J (past ++ [⟨e, r⟩])) (h : J past) :
    p.Heeds fine asks (fun past _ => J past) past := by
  induction p generalizing past with
  | done a => exact h
  | fail x => exact h
  | call e k ih =>
    obtain ⟨allowed, next⟩ := step past e h only.1
    exact ⟨allowed, fun r _ => ih r (only.2 r) (next r)⟩

theorem Heeds.leads {ends : List (Event A ε) → Except ε α → Prop} {p q : Prog E A ε α}
    (h : p.Heeds fine asks ends past) (leads : Leads p events q) (ok : ∀ y ∈ events, fine y) :
    q.Heeds fine asks ends (past ++ events) := by
  induction leads with
  | here => rwa [List.append_nil]
  | on r _ ih =>
    have before := ih fun y hy => ok y (List.mem_append_left _ hy)
    rw [← List.append_assoc]
    exact before.2 r (ok _ (List.mem_append_right _ (List.mem_singleton_self _)))

theorem Heeds.runs {ends : List (Event A ε) → Except ε α → Prop} {p : Prog E A ε α}
    {o : Except ε α} (h : p.Heeds fine asks ends past) (run : Runs p events o)
    (ok : ∀ y ∈ events, fine y) : ends (past ++ events) o := by
  induction run generalizing past with
  | done => rwa [List.append_nil]
  | fail => rwa [List.append_nil]
  | call _ ih =>
    have next := h.2 _ (ok _ (List.mem_cons_self ..))
    have rest := ih next fun y hy => ok y (List.mem_cons_of_mem _ hy)
    rwa [List.append_assoc] at rest

end Prog

namespace Machine

variable {σ Job E : Type} {A : E → Type} {ε α Choice Ext : Type}
  {m : Machine σ Job E A ε α Choice Ext} {Ok : Pool σ Job E A ε α → Act Job Choice Ext → Prop}
  {fine : Prog.Event A ε → Prop}

theorem History.all_fine {s : σ} {q : Pool σ Job E A ε α} {entries : List (Entry σ A ε)}
    (h : m.History Ok (.initial s) entries q)
    (exec : ∀ t s e c s' r, m.exec t s e c = some (s', r) → fine ⟨e, r⟩) :
    ∀ x ∈ entries, fine x.event := by
  intro x hx
  obtain ⟨_, _, _, c, _, _, _, _, answered⟩ := h.answered hx
  exact exec _ _ _ c _ _ answered

theorem History.task_fine {s : σ} {q : Pool σ Job E A ε α} {entries : List (Entry σ A ε)}
    (h : m.History Ok (.initial s) entries q)
    (exec : ∀ t s e c s' r, m.exec t s e c = some (s', r) → fine ⟨e, r⟩) (t : Tid) :
    ∀ y ∈ eventsOf t entries, fine y := by
  intro y hy
  obtain ⟨x, hx, rfl⟩ := List.mem_map.mp hy
  exact h.all_fine exec x (List.mem_filter.mp hx).1

/-- What a task of a pool asks for, its own past allows, and so how it ends. -/
theorem History.heeds {s : σ} {q : Pool σ Job E A ε α} {entries : List (Entry σ A ε)}
    {asks : List (Prog.Event A ε) → E → Prop}
    {ends : List (Prog.Event A ε) → Except ε α → Prop}
    (h : m.History Ok (.initial s) entries q) {t : Tid} {j : Job}
    (ok : ∀ y ∈ eventsOf t entries, fine y) (code : (m.code j).Heeds fine asks ends []) :
    (∀ e k, q.slot t = .live j e k → asks (eventsOf t entries) e) ∧
      ∀ r, q.slot t = .ended j r → ends (eventsOf t entries) r := by
  constructor
  · intro e k live
    have tracks := h.tracks t
    rw [live] at tracks
    have here := code.leads tracks ok
    rw [List.nil_append] at here
    exact here.1
  · intro r ended
    have last := code.runs (h.runs ended) ok
    rwa [List.nil_append] at last

theorem History.asks {s : σ} {q : Pool σ Job E A ε α} {entries : List (Entry σ A ε)}
    {asks : List (Prog.Event A ε) → E → Prop}
    {ends : List (Prog.Event A ε) → Except ε α → Prop}
    (h : m.History Ok (.initial s) entries q)
    (exec : ∀ t s e c s' r, m.exec t s e c = some (s', r) → fine ⟨e, r⟩) {t : Tid} {j : Job}
    (code : (m.code j).Heeds fine asks ends []) {e : E}
    {k : Except ε (A e) → Prog E A ε α} (live : q.slot t = .live j e k) :
    asks (eventsOf t entries) e := (h.heeds (h.task_fine exec t) code).1 e k live

theorem History.ends {s : σ} {q : Pool σ Job E A ε α} {entries : List (Entry σ A ε)}
    {asks : List (Prog.Event A ε) → E → Prop}
    {ends : List (Prog.Event A ε) → Except ε α → Prop}
    (h : m.History Ok (.initial s) entries q)
    (exec : ∀ t s e c s' r, m.exec t s e c = some (s', r) → fine ⟨e, r⟩) {t : Tid} {j : Job}
    (code : (m.code j).Heeds fine asks ends []) {r : Except ε α} (ended : q.slot t = .ended j r) :
    ends (eventsOf t entries) r := (h.heeds (h.task_fine exec t) code).2 r ended

end Machine

end Overbook.Async
