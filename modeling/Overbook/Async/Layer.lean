import Overbook.Async.Soundness

/-! A second verification on top of a first one. A layer adds an invariant, further facts that
tasks rely on and further assertions; what the first logic asserts is given wherever a program of
the layer waits, so only what is new has to be proved, and only of the programs it is about. -/
namespace Overbook.Async

variable {σ Job E : Type} {A : E → Type} {ε α β Choice Ext : Type}
  {m : Machine σ Job E A ε α Choice Ext}

namespace Logic

def under (L : Logic m) (Ok : Tid → σ → E → Choice → Prop) : Logic m := { L with Ok := Ok }

variable {L : Logic m} {strict : Tid → σ → E → Choice → Prop}

theorem Safe.under (le : ∀ t s e c, strict t s e c → L.Ok t s e c) {t : Tid} {s : σ}
    {p : Prog E A ε β} {Q : Except ε β → σ → Prop} (h : L.Safe t p Q s) :
    (L.under strict).Safe t p Q s := by
  induction p generalizing s with
  | done a => exact h
  | fail x => exact h
  | call e k ih =>
    intro s₁ f inv
    obtain ⟨here, next⟩ := h s₁ f inv
    refine ⟨here, fun c s₂ r ok he => ?_⟩
    obtain ⟨keeps, rest⟩ := next c s₂ r (le t s₁ e c ok) he
    exact ⟨keeps, ih r rest⟩

theorem Verified.under {Ok Ok' : Pool σ Job E A ε α → Act Job Choice Ext → Prop}
    {Post : Tid → Job → Except ε α → σ → Prop} (v : Verified L Ok Post)
    (le : ∀ t s e c, strict t s e c → L.Ok t s e c) (fewer : ∀ p a, Ok' p a → Ok p a)
    (allowed : ∀ p t c j e k, Ok' p (.step t c) → p.slot t = .live j e k →
      strict t p.shared e c) : Verified (L.under strict) Ok' Post where
  allowed := allowed
  code p t j ok ready inv fresh := (v.code p t j (fewer p _ ok) ready inv fresh).under le
  finish := v.finish
  ext p x s' ok := v.ext p x s' (fewer p _ ok)
  ended := v.ended
  gone p t j e k ok := v.gone p t j e k (fewer p _ ok)

end Logic

/-- `keeps` is the guarantee of both logics, for every answer and whatever the program. -/
structure Layer (L : Logic m) where
  Inv : σ → Prop
  Frame : Tid → σ → σ → Prop
  Fresh : Tid → σ → Prop
  Here : Tid → E → σ → Prop
  refl : ∀ t s, Frame t s s
  trans : ∀ t s s' s'', Frame t s s' → Frame t s' s'' → Frame t s s''
  fresh : ∀ t s s', Fresh t s → L.Frame t s s' → Frame t s s' → Fresh t s'
  keeps : ∀ t s e c s' r, L.Inv s → Inv s → L.Here t e s → Here t e s → L.Ok t s e c →
    m.exec t s e c = some (s', r) → L.Keeps t s s' ∧ Inv s' ∧ ∀ t', t' ≠ t → Frame t' s s'

namespace Layer

variable {L : Logic m} (Y : Layer L)

def logic : Logic m where
  Inv s := L.Inv s ∧ Y.Inv s
  Frame t s s' := L.Frame t s s' ∧ Y.Frame t s s'
  Fresh t s := L.Fresh t s ∧ Y.Fresh t s
  Here t e s := L.Here t e s ∧ Y.Here t e s
  Ok := L.Ok
  refl t s := ⟨L.refl t s, Y.refl t s⟩
  trans t s s' s'' h h' := ⟨L.trans t s s' s'' h.1 h'.1, Y.trans t s s' s'' h.2 h'.2⟩
  fresh t s s' h f := ⟨L.fresh t s s' h.1 f.1, Y.fresh t s s' h.2 f.1 f.2⟩

/- What is left to prove: the assertions of the first logic are a condition on the steps. -/
def rest : Logic m :=
  { Y.logic with Here := Y.Here, Ok := fun t s e c => L.Ok t s e c ∧ L.Here t e s }

variable {Y} {t : Tid} {s : σ}

/-- A program that is safe in the first logic and in what is left is safe in both. -/
theorem safe {p : Prog E A ε β} {Q Q' : Except ε β → σ → Prop} (h : L.Safe t p Q s)
    (h' : Y.rest.Safe t p Q' s) : Y.logic.Safe t p (fun r s => Q r s ∧ Q' r s) s := by
  induction p generalizing s with
  | done a => exact ⟨h, h'⟩
  | fail x => exact ⟨h, h'⟩
  | call e k ih =>
    intro s₁ f inv
    obtain ⟨here, next⟩ := h s₁ f.1 inv.1
    obtain ⟨here', next'⟩ := h' s₁ f inv
    refine ⟨⟨here, here'⟩, fun c s₂ r ok he => ?_⟩
    obtain ⟨_, tail⟩ := next c s₂ r ok he
    obtain ⟨keeps, tail'⟩ := next' c s₂ r ⟨ok, here⟩ he
    exact ⟨keeps, ih r tail tail'⟩

/-- The rule for one effect of a layer. -/
theorem await_safe {e : E} {Q : Except ε (A e) → σ → Prop}
    (h : ∀ s₁, Y.logic.Frame t s s₁ → Y.logic.Inv s₁ → Y.Here t e s₁ ∧
      ∀ c s₂ r, L.Ok t s₁ e c → L.Here t e s₁ → m.exec t s₁ e c = some (s₂, r) →
        Y.logic.Inv s₂ → Q r s₂) : Y.rest.Safe t (Prog.await e) Q s := by
  apply Logic.Safe.await
  intro s₁ f inv
  obtain ⟨here, next⟩ := h s₁ f inv
  refine ⟨here, fun c s₂ r ok he => ?_⟩
  obtain ⟨keeps, inv', frame⟩ := Y.keeps t s₁ e c s₂ r inv.1 inv.2 ok.2 here ok.1 he
  have both : Y.logic.Inv s₂ := ⟨keeps.1, inv'⟩
  exact ⟨⟨both, fun t' ne => ⟨keeps.2 t' ne, frame t' ne⟩⟩, next c s₂ r ok.1 ok.2 he both⟩

/-- A program of which the layer asserts nothing, and a fact that its effects keep. -/
theorem only_safe {P : E → Prop} {J : σ → Prop} {p : Prog E A ε β} (only : p.Only P)
    (stable : ∀ s s', J s → Y.logic.Frame t s s' → Y.logic.Inv s' → J s')
    (silent : ∀ e, P e → ∀ s, J s → Y.Here t e s)
    (one : ∀ e, P e → ∀ s, Y.logic.Inv s → J s → ∀ c s' r, L.Ok t s e c → L.Here t e s →
      m.exec t s e c = some (s', r) → J s')
    (h : J s) : Y.rest.Safe t p (fun _ => J) s := by
  refine Logic.Safe.of_only only stable (fun e he s inv hj => ?_) h
  have here := silent e he s hj
  refine ⟨here, fun c s' r ok hx => ?_⟩
  obtain ⟨keeps, inv', frame⟩ := Y.keeps t s e c s' r inv.1 inv.2 ok.2 here ok.1 hx
  exact ⟨⟨⟨keeps.1, inv'⟩, fun t' ne => ⟨keeps.2 t' ne, frame t' ne⟩⟩,
    one e he s inv hj c s' r ok.1 ok.2 hx⟩

variable {Ok : Pool σ Job E A ε α → Act Job Choice Ext → Prop}
  {Post Q : Tid → Job → Except ε α → σ → Prop}

/-- What the verification of a layer adds to that of its first logic. -/
theorem verified (v : Logic.Verified L Ok Post)
    (code : ∀ p t j, Ok p (.start t j) → Y.logic.Inv p.shared → Y.logic.Fresh t p.shared →
      Y.rest.Safe t (m.code j) (Q t j) p.shared)
    (finish : ∀ t j r s, Y.logic.Inv s → Post t j r s → Q t j r s →
      Y.Inv (m.finish t j r s) ∧ ∀ t', t' ≠ t → Y.Frame t' s (m.finish t j r s))
    (ext : ∀ p x s', Ok p (.env x) → Y.logic.Inv p.shared → m.ext p.shared x = some s' →
      Y.Inv s' ∧ ∀ t, Y.Frame t p.shared s') :
    Logic.Verified Y.logic Ok (fun t j r s => Post t j r s ∧ Q t j r s) where
  allowed := v.allowed
  code p t j ok ready inv fresh :=
    safe (v.code p t j ok ready inv.1 fresh.1) (code p t j ok inv fresh)
  finish t j r s inv post := by
    have first := v.finish t j r s inv.1 post.1
    have second := finish t j r s inv post.1 post.2
    exact ⟨⟨first.1, second.1⟩, fun t' ne => ⟨first.2 t' ne, second.2 t' ne⟩⟩
  ext p x s' ok inv h := by
    have first := v.ext p x s' ok inv.1 h
    have second := ext p x s' ok inv h
    exact ⟨⟨first.1, second.1⟩, fun t => ⟨first.2 t, second.2 t⟩⟩

end Layer

end Overbook.Async
