import Overbook.RateLimit.Reference

/-! The script is an exact token bucket: with one clock, nobody can tell that keys expire. -/
namespace Overbook.RateLimit

open Overbook.Num TokenBucket

/-- Calls pass the time of one clock, which is `offset` ahead of that of Redis, and ask for at most
a full bucket; Redis removes a key at its deadline or later. -/
def Punctual (capacity offset : Rat) (s : BucketKey) : Act → Prop
  | .tick d => 0 ≤ d
  | .call now cost => now = s.clock + offset ∧ 0 < cost ∧ cost ≤ capacity
  | .removed => ∃ deadline ∈ s.hash.bind (·.expiresAt), deadline ≤ s.clock

def FullBy (capacity refill base : Rat) (s : BucketKey) (t : Rat) : Prop :=
  capacity ≤ (levelIn capacity refill base s).tokens +
    (t - (levelIn capacity refill base s).since) * (refill / 1000)

instance (capacity offset : Rat) (s : BucketKey) : ∀ a, Decidable (Punctual capacity offset s a)
  | .tick _ => inferInstanceAs (Decidable (_ ≤ _))
  | .call _ _ => inferInstanceAs (Decidable (_ ∧ _ ∧ _))
  | .removed => inferInstanceAs (Decidable (∃ deadline ∈ s.hash.bind (·.expiresAt), deadline ≤ s.clock))

/-- What holds besides the agreement: a key that is missing, or due to be removed, has had the
time to fill. -/
structure OnTime (capacity refill offset base : Rat) (s : BucketKey) : Prop where
  agrees : Agrees capacity refill base s
  stamps : ∀ e ∈ s.history, e.now = e.clock + offset
  last : (levelIn capacity refill base s).since ≤ s.clock + offset
  deadline : ∀ hash, s.hash = some hash → ∃ deadline, hash.expiresAt = some deadline ∧
    FullBy capacity refill base s (deadline + offset)
  missing : s.hash = none → FullBy capacity refill base s (s.clock + offset)

variable {fits : Rat → Bool} {capacity refill offset base : Rat} {s : BucketKey}

theorem FullBy.later (pos : 0 < refill) {t t' : Rat} (h : FullBy capacity refill base s t)
    (le : t ≤ t') : FullBy capacity refill base s t' := by
  have rate : 0 ≤ refill / 1000 := by positivity
  have more := mul_le_mul_of_nonneg_right
    (sub_le_sub_right le (levelIn capacity refill base s).since) rate
  exact h.trans (add_le_add_right more _)

theorem levelIn_call (fits : Rat → Bool) (now cost : Rat) :
    levelIn capacity refill base (s.step fits capacity refill (.call now cost)) =
      (reference capacity refill).after (levelIn capacity refill base s) ⟨now, cost⟩ := by
  rw [levelIn, step_call, List.map_append, List.map_cons, List.map_nil, run_append]
  rfl

theorem call_onTime (pos : 0 < refill) (nonneg : 0 ≤ capacity)
    (takes : Takes fits capacity refill s.clock)
    (h : OnTime capacity refill offset base s) {cost : Rat} (positive : 0 < cost) :
    OnTime capacity refill offset base
      (s.step fits capacity refill (.call (s.clock + offset) cost)) := by
  have inTime : InTime capacity refill base s (s.clock + offset) :=
    ⟨h.last, fun none => min_eq_left (h.missing none)⟩
  have agrees := call_agrees pos nonneg takes h.agrees positive.le inTime
  obtain ⟨retryAfterMs, reply⟩ := tokenBucket_exact pos nonneg takes cost
    (refilled_agrees h.agrees inTime)
  constructor
  · exact agrees
  · rw [step_call]
    intro e he
    rcases List.mem_append.mp he with old | new
    · exact h.stamps e old
    · rw [List.mem_singleton.mp new]
  · rw [levelIn_call]
    exact le_rfl
  · intro hash key
    have valid := levelIn_valid pos nonneg agrees
    rw [step_call, reply] at key
    obtain rfl := Option.some.inj key
    refine ⟨_, rfl, ?_⟩
    -- the key lives at least as long as an empty bucket takes to fill
    have fills := lifetime_fills capacity pos
    have since : (levelIn capacity refill base
        (s.step fits capacity refill (.call (s.clock + offset) cost))).since = s.clock + offset := by
      rw [levelIn_call]
      rfl
    have span : s.clock + lifetime capacity refill + offset - (s.clock + offset) =
        lifetime capacity refill := by ring
    unfold FullBy
    rw [since, span]
    linarith [valid.nonneg]
  · intro none
    rw [step_call, reply] at none
    cases none

theorem onTime_step (pos : 0 < refill) (nonneg : 0 ≤ capacity)
    (takes : Takes fits capacity refill s.clock) {a : Act} (ok : Punctual capacity offset s a) (h : OnTime capacity refill offset base s) :
    OnTime capacity refill offset base (s.step fits capacity refill a) := by
  cases a with
  | tick d =>
    have later : s.clock + offset ≤ s.clock + d + offset :=
      add_le_add_left (le_add_of_nonneg_right ok) offset
    exact ⟨⟨h.agrees.forward, h.agrees.decisions, h.agrees.stored, h.agrees.spent⟩, h.stamps,
      h.last.trans later, h.deadline, fun none => (h.missing none).later pos later⟩
  | call now cost =>
    obtain ⟨rfl, positive, _⟩ := ok
    exact call_onTime pos nonneg takes h positive
  | removed =>
    obtain ⟨deadline, expiring, reached⟩ := ok
    obtain ⟨hash, key, expires⟩ := Option.bind_eq_some_iff.mp expiring
    obtain ⟨deadline', expires', fullBy⟩ := h.deadline hash key
    obtain rfl := Option.some.inj (expires.symm.trans expires')
    exact ⟨⟨h.agrees.forward, h.agrees.decisions, nofun, h.agrees.spent⟩, h.stamps, h.last, nofun,
      fun _ => fullBy.later pos (add_le_add_left reached offset)⟩

theorem onTime (pos : 0 < refill) (nonneg : 0 ≤ capacity) {start : Rat}
    (run : Reach unbounded capacity refill (Punctual capacity offset) (unused start) s) :
    OnTime capacity refill offset (start + offset) s := by
  induction run with
  | refl =>
    have filled : FullBy capacity refill (start + offset) (unused start) (start + offset) := by
      have untouched : levelIn capacity refill (start + offset) (unused start) =
        full capacity (start + offset) := rfl
      unfold FullBy
      rw [untouched]
      simp [full]
    exact ⟨unused_agrees (start + offset) start, nofun, le_rfl, nofun, fun _ => filled⟩
  | tail _ step ih =>
    obtain ⟨a, ok, rfl⟩ := step
    exact onTime_step pos nonneg (takes_unbounded _) ok ih

theorem granted_le (pos : 0 < refill) (nonneg : 0 ≤ capacity)
    (h : OnTime capacity refill offset base s) (x : Rat) {T : Rat} (window : 0 ≤ T) :
    granted x (x + 1000 * T) s.history ≤ capacity + refill * T := by
  have rate : 0 ≤ (reference capacity refill).rate := by
    unfold reference
    positivity
  have bound := spent_le (x := x + offset) (y := x + 1000 * T + offset) (full_valid nonneg) rate
    h.agrees.forward (by linarith)
  -- the clock of the callers sees the same window, `offset` later
  have same : granted x (x + 1000 * T) s.history = (s.history.map fun e =>
      if e.allowed ∧ x + offset ≤ e.now ∧ e.now ≤ x + 1000 * T + offset then e.cost else 0).sum := by
    unfold granted
    refine congrArg List.sum (List.map_congr_left fun e he => ?_)
    simp only [h.stamps e he, add_le_add_iff_right]
  rw [same, ← h.agrees.spent]
  calc _ ≤ _ := bound
    _ = capacity + refill * T := by simp only [reference]; ring

/-- In every run the stored tokens stay within the bucket, every reply is that of a bucket that
starts full and never expires, and no window sees more granted than a full bucket and its refill.
PEXPIRE takes any expiry here; those outside its range are for `Enforceable`. -/
theorem exact_token_bucket (capacity refill offset start : Rat) (some_capacity : 0 < capacity)
    (some_refill : 0 < refill) (s : BucketKey)
    (run : Reach unbounded capacity refill (Punctual capacity offset) (unused start) s) :
    (∀ hash, s.hash = some hash → ∃ tokens, hash.tokens = fin tokens ∧ 0 ≤ tokens ∧
      tokens ≤ capacity) ∧
    s.history.map (·.decision) = ((reference capacity refill).decisions
      (full capacity (start + offset)) (s.history.map (·.call))).map reported ∧
    ∀ x T, 0 ≤ T → granted x (x + 1000 * T) s.history ≤ capacity + refill * T := by
  have h := onTime some_refill some_capacity.le run
  have valid := levelIn_valid some_refill some_capacity.le h.agrees
  constructor
  · intro hash key
    exact ⟨_, (h.agrees.stored hash key).1, valid.nonneg, valid.le⟩
  · exact ⟨h.agrees.decisions, fun x T => granted_le some_refill some_capacity.le h x⟩

/- A full bucket of one token: a call, a denied one, and one after the key has expired. -/
def threeCalls : List Act :=
  [.call 7 1, .tick 500, .call 507 1, .tick 2000, .removed, .call 2507 1]

theorem exact_token_bucket_three : ∃ s : BucketKey,
    s.history.map (·.decision) = [some (true, fin 0), some (false, fin 0), some (true, fin 0)] ∧
    (∀ hash, s.hash = some hash → ∃ tokens, hash.tokens = fin tokens ∧ 0 ≤ tokens ∧ tokens ≤ 1) ∧
    s.history.map (·.decision) =
      ((reference 1 1).decisions (full 1 (0 + 7)) (s.history.map (·.call))).map reported ∧
    ∀ x T, 0 ≤ T → granted x (x + 1000 * T) s.history ≤ 1 + 1 * T := by
  have run : Follows unbounded 1 1 (Punctual 1 7) (unused 0) threeCalls := by decide +kernel
  refine ⟨threeCalls.foldl (BucketKey.step unbounded 1 1) (unused 0), by decide +kernel, ?_⟩
  exact exact_token_bucket 1 1 7 0 (by decide) (by decide) _ run.reach

end Overbook.RateLimit
