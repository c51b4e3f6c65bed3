import Overbook.Async.Pool

/-! Rely and guarantee for pools of programs. A logic fixes an invariant of the shared state,
what one task may rely on while others run, and what it asserts at each of its awaits. A program
is safe when every answer it can get keeps the invariant and what the others rely on. -/
namespace Overbook.Async

variable {σ Job E : Type} {A : E → Type} {ε α β Choice Ext : Type}

/-- `Frame t s s'` is all that task `t` knows of steps it does not take. `Here` is asserted
wherever `t` waits for an answer, `Fresh` before it starts and `Ended` once it has settled or has
died; `Ok` is the condition under which its steps are judged. -/
structure Logic (m : Machine σ Job E A ε α Choice Ext) where
  Inv : σ → Prop
  Frame : Tid → σ → σ → Prop
  Fresh : Tid → σ → Prop
  Here : Tid → E → σ → Prop
  Ok : Tid → σ → E → Choice → Prop
  refl : ∀ t s, Frame t s s
  trans : ∀ t s s' s'', Frame t s s' → Frame t s' s'' → Frame t s s''
  fresh : ∀ t s s', Fresh t s → Frame t s s' → Fresh t s'
  Ended : Tid → σ → Prop := fun _ _ => True
  ended : ∀ t s s', Ended t s → Frame t s s' → Ended t s' := by intros; trivial

namespace Logic

variable {m : Machine σ Job E A ε α Choice Ext} (L : Logic m)

/-- What a step of `t` owes to the rest of the pool. -/
def Keeps (t : Tid) (s s' : σ) : Prop := L.Inv s' ∧ ∀ t', t' ≠ t → L.Frame t' s s'

def Safe (t : Tid) : Prog E A ε β → (Except ε β → σ → Prop) → σ → Prop
  | .done a, Q, s => Q (.ok a) s
  | .fail x, Q, s => Q (.error x) s
  | .call e k, Q, s => ∀ s₁, L.Frame t s s₁ → L.Inv s₁ → L.Here t e s₁ ∧
      ∀ c s₂ r, L.Ok t s₁ e c → m.exec t s₁ e c = some (s₂, r) →
        L.Keeps t s₁ s₂ ∧ Safe t (k r) Q s₂

variable {L}
variable {t : Tid} {s : σ}

/- A waiting program does not mind what the others did while it waited. -/
theorem Safe.frame {e : E} {k : Except ε (A e) → Prog E A ε β} {Q : Except ε β → σ → Prop}
    {s' : σ} (h : L.Safe t (.call e k) Q s) (hf : L.Frame t s s') :
    L.Safe t (.call e k) Q s' :=
  fun s₁ hs₁ hi => h s₁ (L.trans t s s' s₁ hf hs₁) hi

theorem Safe.mono {p : Prog E A ε β} {Q Q' : Except ε β → σ → Prop} (h : L.Safe t p Q s)
    (le : ∀ r s', Q r s' → Q' r s') : L.Safe t p Q' s := by
  induction p generalizing s with
  | done a => exact le _ _ h
  | fail x => exact le _ _ h
  | call e k ih =>
    intro s₁ hf hi
    obtain ⟨here, next⟩ := h s₁ hf hi
    refine ⟨here, fun c s₂ r ok he => ?_⟩
    obtain ⟨keeps, rest⟩ := next c s₂ r ok he
    exact ⟨keeps, ih r rest⟩

/-- A call in sequence: the rest is verified from wherever `p` may return. -/
theorem Safe.bind {γ : Type} {p : Prog E A ε β} {f : β → Prog E A ε γ}
    {Q : Except ε γ → σ → Prop}
    (h : L.Safe t p (fun r s' => match r with
      | .ok a => L.Safe t (f a) Q s'
      | .error x => Q (.error x) s') s) : L.Safe t (p >>= f) Q s := by
  induction p generalizing s with
  | done a => exact h
  | fail x => exact h
  | call e k ih =>
    intro s₁ hf hi
    obtain ⟨here, next⟩ := h s₁ hf hi
    refine ⟨here, fun c s₂ r ok he => ?_⟩
    obtain ⟨keeps, rest⟩ := next c s₂ r ok he
    exact ⟨keeps, ih r rest⟩

theorem Safe.handle {p : Prog E A ε β} {h : ε → Prog E A ε β} {Q : Except ε β → σ → Prop}
    (hp : L.Safe t p (fun r s' => match r with
      | .ok a => Q (.ok a) s'
      | .error x => L.Safe t (h x) Q s') s) : L.Safe t (tryCatch p h) Q s := by
  induction p generalizing s with
  | done a => exact hp
  | fail x => exact hp
  | call e k ih =>
    intro s₁ hf hi
    obtain ⟨here, next⟩ := hp s₁ hf hi
    refine ⟨here, fun c s₂ r ok he => ?_⟩
    obtain ⟨keeps, rest⟩ := next c s₂ r ok he
    exact ⟨keeps, ih r rest⟩

theorem Safe.outcome {p : Prog E A ε β} {Q : Except ε (Except ε β) → σ → Prop}
    (h : L.Safe t p (fun r s' => Q (.ok r) s') s) : L.Safe t p.outcome Q s := by
  apply Safe.handle
  apply Safe.bind
  refine h.mono fun r s' hq => ?_
  cases r with
  | ok a => exact hq
  | error x => exact hq

theorem Safe.ensure {p : Prog E A ε β} {q : Prog E A ε Unit} {Q : Except ε β → σ → Prop}
    (h : L.Safe t p (fun r s' => L.Safe t q (fun u s'' => match u with
      | .ok _ => Q r s''
      | .error x => Q (.error x) s'') s') s) : L.Safe t (p.ensure q) Q s := by
  apply Safe.bind
  apply Safe.outcome
  refine h.mono fun r s' hq => ?_
  apply Safe.bind
  refine hq.mono fun u s'' hu => ?_
  cases u with
  | ok _ => cases r with
    | ok a => exact hu
    | error x => exact hu
  | error x => exact hu

/-- A check in sequence: the rest runs only on what the check has let through. -/
theorem Safe.check {γ : Type} {r : Except ε β} {f : β → Prog E A ε γ}
    {Q : Except ε γ → σ → Prop} (pass : ∀ a, r = .ok a → L.Safe t (f a) Q s)
    (stop : ∀ x, r = .error x → Q (.error x) s) : L.Safe t (Prog.ofExcept r >>= f) Q s := by
  cases r with
  | ok a => exact pass a rfl
  | error x => exact stop x rfl

theorem Safe.await {e : E} {Q : Except ε (A e) → σ → Prop}
    (h : ∀ s₁, L.Frame t s s₁ → L.Inv s₁ → L.Here t e s₁ ∧
      ∀ c s₂ r, L.Ok t s₁ e c → m.exec t s₁ e c = some (s₂, r) →
        L.Keeps t s₁ s₂ ∧ Q r s₂) : L.Safe t (Prog.await e) Q s := by
  intro s₁ hf hi
  obtain ⟨here, next⟩ := h s₁ hf hi
  refine ⟨here, fun c s₂ r ok he => ?_⟩
  obtain ⟨keeps, rest⟩ := next c s₂ r ok he
  refine ⟨keeps, ?_⟩
  cases r with
  | ok a => exact rest
  | error x => exact rest

/-- A program all of whose effects keep an assertion that the others cannot disturb. -/
theorem Safe.of_only {P : E → Prop} {J : σ → Prop} {p : Prog E A ε β} (only : p.Only P)
    (stable : ∀ s s', J s → L.Frame t s s' → L.Inv s' → J s')
    (one : ∀ e, P e → ∀ s, L.Inv s → J s → L.Here t e s ∧ ∀ c s' r, L.Ok t s e c →
      m.exec t s e c = some (s', r) → L.Keeps t s s' ∧ J s')
    (h : J s) : L.Safe t p (fun _ => J) s := by
  induction p generalizing s with
  | done a => exact h
  | fail x => exact h
  | call e k ih =>
    intro s₁ hf hi
    have hj := stable s s₁ h hf hi
    obtain ⟨here, next⟩ := one e only.1 s₁ hi hj
    refine ⟨here, fun c s₂ r ok he => ?_⟩
    obtain ⟨keeps, hj₂⟩ := next c s₂ r ok he
    exact ⟨keeps, ih r (only.2 r) hj₂⟩

/-- The verified pool: the invariant holds and every task that has not settled is safe. -/
structure Sound (L : Logic m) (Post : Tid → Job → Except ε α → σ → Prop)
    (p : Pool σ Job E A ε α) : Prop where
  inv : L.Inv p.shared
  fresh : ∀ t, p.slot t = .idle → L.Fresh t p.shared
  safe : ∀ t j e k, p.slot t = .live j e k → L.Safe t (.call e k) (Post t j) p.shared
  ended : ∀ t j r, p.slot t = .ended j r → L.Ended t p.shared
  gone : ∀ t j, p.slot t = .gone j → L.Ended t p.shared

/-- What a verification of a machine consists of, for the runs whose actions satisfy `Ok`. -/
structure Verified (L : Logic m) (Ok : Pool σ Job E A ε α → Act Job Choice Ext → Prop)
    (Post : Tid → Job → Except ε α → σ → Prop) : Prop where
  allowed : ∀ p t c j e k, Ok p (.step t c) → p.slot t = .live j e k → L.Ok t p.shared e c
  code : ∀ p t j, Ok p (.start t j) → m.ready p.shared j = true → L.Inv p.shared →
    L.Fresh t p.shared → L.Safe t (m.code j) (Post t j) p.shared
  finish : ∀ t j r s, L.Inv s → Post t j r s → L.Keeps t s (m.finish t j r s)
  ext : ∀ p x s', Ok p (.env x) → L.Inv p.shared → m.ext p.shared x = some s' →
    L.Inv s' ∧ ∀ t, L.Frame t p.shared s'
  ended : ∀ t j r s, L.Inv s → Post t j r s → L.Ended t (m.finish t j r s) := by intros; trivial
  gone : ∀ p t j e k, Ok p (.kill t) → p.slot t = .live j e k → L.Here t e p.shared →
    L.Ended t p.shared := by intros; trivial

variable {Ok : Pool σ Job E A ε α → Act Job Choice Ext → Prop}
  {Post : Tid → Job → Except ε α → σ → Prop}

theorem settle_keeps {t : Tid} {j : Job} {s s' : σ} {b : Prog E A ε α} (v : Verified L Ok Post)
    (keeps : L.Keeps t s s') (safe : L.Safe t b (Post t j) s') :
    L.Keeps t s (m.settle t j s' b).1 := by
  have settled : ∀ r, Post t j r s' → L.Keeps t s (m.finish t j r s') := by
    intro r hr
    have hfin := v.finish t j r s' keeps.1 hr
    exact ⟨hfin.1, fun t' ne => L.trans t' _ _ _ (keeps.2 t' ne) (hfin.2 t' ne)⟩
  cases b with
  | done a => exact settled _ safe
  | fail x => exact settled _ safe
  | call e k => exact keeps

/- The pool after task `t` has taken a step from `s` to `s'` and goes on with `q`. -/
theorem sound_put {p : Pool σ Job E A ε α} (v : Verified L Ok Post) (h : Sound L Post p)
    {t : Tid} {j : Job} {s' : σ} {q : Prog E A ε α} (keeps : L.Keeps t p.shared s')
    (safe : L.Safe t q (Post t j) s') : Sound L Post (Machine.put p t (m.settle t j s' q)) := by
  have slots : ∀ t', t' ≠ t → (Machine.put p t (m.settle t j s' q)).slot t' = p.slot t' :=
    fun t' ne => Machine.put_of_ne ne p _
  have own := Machine.put_self p t (m.settle t j s' q)
  have after := settle_keeps v keeps safe
  constructor
  · exact after.1
  · intro t' idle
    rcases eq_or_ne t' t with rfl | ht
    · rw [own] at idle
      cases q <;> cases idle
    · rw [slots t' ht] at idle
      exact L.fresh t' _ _ (h.fresh t' idle) (after.2 t' ht)
  · intro t' j' e k live
    rcases eq_or_ne t' t with rfl | ht
    · rw [own] at live
      cases q with
      | done a => cases live
      | fail x => cases live
      | call e' k' => cases live; exact safe
    · rw [slots t' ht] at live
      exact (h.safe t' j' e k live).frame (after.2 t' ht)
  · intro t' j' r ended
    rcases eq_or_ne t' t with rfl | ht
    · rw [own] at ended
      cases q with
      | done a => exact v.ended t' j _ s' keeps.1 safe
      | fail x => exact v.ended t' j _ s' keeps.1 safe
      | call e' k' => cases ended
    · rw [slots t' ht] at ended
      exact L.ended t' _ _ (h.ended t' j' r ended) (after.2 t' ht)
  · intro t' j' gone
    rcases eq_or_ne t' t with rfl | ht
    · rw [own] at gone
      cases q <;> cases gone
    · rw [slots t' ht] at gone
      exact L.ended t' _ _ (h.gone t' j' gone) (after.2 t' ht)

/-- A task that starts or goes on does so from a state it has kept, with the rest verified. -/
theorem sound_advance {p q : Pool σ Job E A ε α} {a : Act Job Choice Ext}
    (v : Verified L Ok Post) (h : Sound L Post p) (ok : Ok p a) (st : m.Steps p a q) :
    (∃ t j s b, q = Machine.put p t (m.settle t j s b) ∧ L.Keeps t p.shared s ∧
      L.Safe t b (Post t j) s) ∨
    (∃ t j, q = ⟨p.shared, Function.update p.slot t (.gone j)⟩ ∧ L.Ended t p.shared) ∨
    ∃ s, q = ⟨s, p.slot⟩ ∧ L.Inv s ∧ ∀ t, L.Frame t p.shared s := by
  cases st with
  | @start t j idle ready =>
    have keeps : L.Keeps t p.shared p.shared := ⟨h.inv, fun t' _ => L.refl t' _⟩
    exact .inl ⟨t, j, _, _, rfl, keeps, v.code p t j ok ready h.inv (h.fresh t idle)⟩
  | @step t c j e k s r live answered =>
    obtain ⟨_, next⟩ := h.safe t j e k live p.shared (L.refl t _) h.inv
    obtain ⟨keeps, rest⟩ := next c s r (v.allowed p t c j e k ok live) answered
    exact .inl ⟨t, j, s, k r, rfl, keeps, rest⟩
  | kill live =>
    have here := (h.safe _ _ _ _ live p.shared (L.refl _ _) h.inv).1
    exact .inr (.inl ⟨_, _, rfl, v.gone p _ _ _ _ ok live here⟩)
  | env happened =>
    obtain ⟨inv, frame⟩ := v.ext p _ _ ok h.inv happened
    exact .inr (.inr ⟨_, rfl, inv, frame⟩)

theorem sound_step {p q : Pool σ Job E A ε α} {a : Act Job Choice Ext}
    (v : Verified L Ok Post) (h : Sound L Post p) (ok : Ok p a) (st : m.step p a = some q) :
    Sound L Post q := by
  rcases sound_advance v h ok (Machine.steps_of_step st) with
    ⟨t, j, s, b, rfl, keeps, safe⟩ | ⟨t, j, rfl, ended⟩ | ⟨s, rfl, inv, frame⟩
  · exact sound_put v h keeps safe
  · have others : ∀ t' slot, Function.update p.slot t (.gone j) t' = slot → slot ≠ .gone j →
        p.slot t' = slot := by
      intro t' slot here alive
      rcases eq_or_ne t' t with rfl | ht
      · exact absurd (here.symm.trans (Function.update_self ..)) alive
      · exact (Function.update_of_ne ht ..).symm.trans here
    constructor
    · exact h.inv
    · exact fun t' idle => h.fresh t' (others t' _ idle nofun)
    · exact fun t' j' e k live => h.safe t' j' e k (others t' _ live nofun)
    · exact fun t' j' r ended => h.ended t' j' r (others t' _ ended nofun)
    · intro t' j' gone
      rcases eq_or_ne t' t with rfl | ht
      · exact ended
      · exact h.gone t' j' ((Function.update_of_ne ht ..).symm.trans gone)
  · constructor
    · exact inv
    · exact fun t idle => L.fresh t _ _ (h.fresh t idle) (frame t)
    · exact fun t j e k live => (h.safe t j e k live).frame (frame t)
    · exact fun t j r ended => L.ended t _ _ (h.ended t j r ended) (frame t)
    · exact fun t j gone => L.ended t _ _ (h.gone t j gone) (frame t)

/-- What a task has established at the step that settles it. -/
theorem sound_settle {p q : Pool σ Job E A ε α} {a : Act Job Choice Ext}
    (v : Verified L Ok Post) (h : Sound L Post p) (ok : Ok p a) (st : m.step p a = some q)
    {t : Tid} {j : Job} {r : Except ε α} (before : p.slot t ≠ .ended j r)
    (settled : q.slot t = .ended j r) :
    ∃ s, L.Inv s ∧ Post t j r s ∧ q.shared = m.finish t j r s := by
  rcases sound_advance v h ok (Machine.steps_of_step st) with
    ⟨t', j', s, b, rfl, keeps, safe⟩ | ⟨t', j', rfl, _⟩ | ⟨s, rfl, _, _⟩
  · rcases eq_or_ne t t' with rfl | ht
    · have own : (m.settle t j' s b).2 = .ended j r :=
        (Machine.put_self p t _).symm.trans settled
      cases b with
      | done a => cases own; exact ⟨s, keeps.1, safe, rfl⟩
      | fail x => cases own; exact ⟨s, keeps.1, safe, rfl⟩
      | call e k => cases own
    · exact absurd ((Machine.put_of_ne ht p _).symm.trans settled) before
  · rcases eq_or_ne t t' with rfl | ht
    · exact nomatch (Function.update_self ..).symm.trans settled
    · exact absurd ((Function.update_of_ne ht ..).symm.trans settled) before
  · exact absurd settled before

theorem initial_sound {s : σ} (inv : L.Inv s) (fresh : ∀ t, L.Fresh t s) :
    Sound L Post (Pool.initial s) :=
  ⟨inv, fun t _ => fresh t, fun _ _ _ _ live => (nomatch live), fun _ _ _ ended => (nomatch ended),
    fun _ _ gone => (nomatch gone)⟩

/-- Every pool that a run reaches is verified. -/
theorem reach_sound {p q : Pool σ Job E A ε α} (v : Verified L Ok Post) (h : Sound L Post p)
    (run : m.Reach Ok p q) : Sound L Post q := by
  induction run with
  | refl => exact h
  | step _ ok st ih => exact sound_step v ih ok st

/-- A postcondition that the others cannot disturb goes on to hold of every settled task. -/
theorem answers_last {p q : Pool σ Job E A ε α} (v : Verified L Ok Post) (h : Sound L Post p)
    (run : m.Reach Ok p q)
    (stable : ∀ t j r s s', Post t j r s → L.Frame t s s' → Post t j r s')
    (finish : ∀ t j r s, L.Inv s → Post t j r s → Post t j r (m.finish t j r s))
    (start : ∀ t j r, p.slot t = .ended j r → Post t j r p.shared) {t : Tid} {j : Job}
    {r : Except ε α} (ended : q.slot t = .ended j r) : Post t j r q.shared := by
  induction run with
  | refl => exact start t j r ended
  | step run ok st ih =>
    rcases sound_advance v (reach_sound v h run) ok (Machine.steps_of_step st) with
      ⟨t', j', s, b, rfl, keeps, safe⟩ | ⟨t', j', rfl, _⟩ | ⟨s, rfl, _, frame⟩
    · rcases eq_or_ne t t' with rfl | ht
      · have own : (m.settle t j' s b).2 = .ended j r := (Machine.put_self _ t _).symm.trans ended
        cases b with
        | done a => cases own; exact finish t j _ s keeps.1 safe
        | fail x => cases own; exact finish t j _ s keeps.1 safe
        | call e k => cases own
      · have before := (Machine.put_of_ne ht ..).symm.trans ended
        exact stable t j r _ _ (ih before) ((settle_keeps v keeps safe).2 t ht)
    · rcases eq_or_ne t t' with rfl | ht
      · exact nomatch (Function.update_self ..).symm.trans ended
      · exact ih ((Function.update_of_ne ht ..).symm.trans ended)
    · exact stable t j r _ _ (ih ended) (frame t)

theorem Sound.here {p : Pool σ Job E A ε α} (h : Sound L Post p) {t : Tid} {j : Job} {e : E}
    {k : Except ε (A e) → Prog E A ε α} (live : p.slot t = .live j e k) : L.Here t e p.shared :=
  (h.safe t j e k live p.shared (L.refl t _) h.inv).1

/-- A property of the shared state that every answer preserves, given what the logic asserts
where the answer is awaited, holds in every pool that a run reaches. -/
theorem reach_invariant {J : σ → Prop} {p q : Pool σ Job E A ε α} (v : Verified L Ok Post)
    (h : Sound L Post p) (run : m.Reach Ok p q) (start : J p.shared)
    (step : ∀ t s e c s' r, L.Inv s → L.Here t e s → L.Ok t s e c → J s →
      m.exec t s e c = some (s', r) → L.Inv s' → J s')
    (settle : ∀ t j r s, L.Inv s → Post t j r s → J s → J (m.finish t j r s))
    (ext : ∀ q x s', Ok q (.env x) → L.Inv q.shared → J q.shared →
      m.ext q.shared x = some s' → J s') : J q.shared := by
  have settled : ∀ {t j s} {b : Prog E A ε α}, L.Inv s → L.Safe t b (Post t j) s → J s →
      J (m.settle t j s b).1 := by
    intro t j s b inv safe hj
    cases b with
    | done a => exact settle t j _ s inv safe hj
    | fail x => exact settle t j _ s inv safe hj
    | call e k => exact hj
  induction run with
  | refl => exact start
  | @step q q' a run ok st ih =>
    have sound := reach_sound v h run
    cases Machine.steps_of_step st with
    | @start t j idle ready =>
      exact settled sound.inv (v.code q t j ok ready sound.inv (sound.fresh t idle)) ih
    | @step t c j e k s r live answered =>
      have allowed := v.allowed q t c j e k ok live
      obtain ⟨here, next⟩ := sound.safe t j e k live q.shared (L.refl t _) sound.inv
      obtain ⟨keeps, safe⟩ := next c s r allowed answered
      exact settled keeps.1 safe
        (step t q.shared e c s r sound.inv here allowed ih answered keeps.1)
    | kill live => exact ih
    | env happened => exact ext q _ _ ok sound.inv ih happened

end Logic

end Overbook.Async
