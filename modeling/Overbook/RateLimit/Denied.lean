import Overbook.RateLimit.Exact
import Overbook.RateLimit.Guard

/-! Denied calls: they cost nothing, and what they are told to wait is enough and no more than
that. -/
namespace Overbook.RateLimit

open Overbook.Num TokenBucket

variable {capacity refill offset base : Rat} {s s' : BucketKey}

def BucketKey.reply (capacity refill offset : Rat) (s : BucketKey) (cost : Rat) :
    Except Err TokenBucketResult :=
  (tokenBucket unbounded s.clock s.hash (.fin capacity) (.fin refill) (.fin (s.clock + offset))
    (.fin cost)).2

/-- Whatever happens but a call. -/
def Waiting (capacity offset : Rat) (s : BucketKey) (a : Act) : Prop :=
  Punctual capacity offset s a ∧ ∀ now cost, a ≠ .call now cost

def wait (capacity refill : Rat) (l : Level Rat) (c : Call Rat) : Rat :=
  (c.cost - (reference capacity refill).refilled l c.now) / (reference capacity refill).rate

theorem reference_rate (pos : 0 < refill) : 0 < (reference capacity refill).rate := by
  unfold reference
  positivity

/-- The reply is that of the reference bucket, and a denied call is told its wait in whole
milliseconds. -/
theorem reply_onTime (pos : 0 < refill) (h : OnTime capacity refill offset base s) (cost : Rat) :
    ∃ remaining, s.reply capacity refill offset cost =
      .ok ⟨(reference capacity refill).grants (levelIn capacity refill base s)
          ⟨s.clock + offset, cost⟩, remaining,
        if (reference capacity refill).grants (levelIn capacity refill base s)
          ⟨s.clock + offset, cost⟩ then .ofInt 0
        else .ofInt (wait capacity refill (levelIn capacity refill base s)
          ⟨s.clock + offset, cost⟩).ceil⟩ := by
  have inTime : InTime capacity refill base s (s.clock + offset) :=
    ⟨h.last, fun none => min_eq_left (h.missing none)⟩
  have level := refilled_agrees h.agrees inTime
  have takes : Takes unbounded capacity refill s.clock := takes_unbounded s.clock
  have whole : (lifetime capacity refill).den = 1 := by simp [lifetime]
  unfold BucketKey.reply
  simp only [tokenBucket, expiry_exact pos.ne', pexpire, whole, takes.1, takes.2, and_self, if_true,
    level]
  refine ⟨_, congrArg Except.ok (congrArg _ ?_)⟩
  by_cases granted : cost ≤ (reference capacity refill).refilled (levelIn capacity refill base s)
      (s.clock + offset)
  · simp [Num.le, Bucket.grants, granted]
  · have rate : (cost - (reference capacity refill).refilled (levelIn capacity refill base s)
        (s.clock + offset)) / refill * 1000 =
        wait capacity refill (levelIn capacity refill base s) ⟨s.clock + offset, cost⟩ := by
      simp only [wait, reference]
      field_simp
    simp [Num.le, Bucket.grants, granted, retryAfter, sub_fin, div_fin _ pos.ne', Num.mul,
      Num.ofInt, Num.ceil, rate]

theorem waiting_history {fits : Rat → Bool}
    (run : Reach fits capacity refill (Waiting capacity offset) s s') : s'.history = s.history := by
  induction run with
  | refl => rfl
  | tail _ step ih =>
    obtain ⟨a, ok, rfl⟩ := step
    cases a with
    | tick d => exact ih
    | call now cost => exact absurd rfl (ok.2 now cost)
    | removed => exact ih

theorem waiting_onTime (pos : 0 < refill) (nonneg : 0 ≤ capacity)
    (h : OnTime capacity refill offset base s)
    (run : Reach unbounded capacity refill (Waiting capacity offset) s s') :
    OnTime capacity refill offset base s' ∧ s.clock ≤ s'.clock := by
  induction run with
  | refl => exact ⟨h, le_rfl⟩
  | tail _ step ih =>
    obtain ⟨a, ok, rfl⟩ := step
    refine ⟨onTime_step pos nonneg (takes_unbounded _) ok.1 ih.1, ih.2.trans ?_⟩
    cases a with
    | tick d => exact le_add_of_nonneg_right ok.1
    | call now cost => exact absurd rfl (ok.2 now cost)
    | removed => exact le_rfl

def Admits (capacity refill offset cost : Rat) (s : BucketKey) : Prop :=
  ∃ r, s.reply capacity refill offset cost = .ok r ∧ r.allowed = true

def Refuses (capacity refill offset cost : Rat) (s : BucketKey) : Prop :=
  ∃ r, s.reply capacity refill offset cost = .ok r ∧ r.allowed = false

/-- After a denied call, and without another one, the bucket admits the cost once the wait is over
and not before. -/
theorem admits_iff (pos : 0 < refill) {cost : Rat} (positive : 0 < cost) (le : cost ≤ capacity)
    (h : OnTime capacity refill offset base s)
    (denied : (reference capacity refill).grants (levelIn capacity refill base s)
      ⟨s.clock + offset, cost⟩ = false)
    (run : Reach unbounded capacity refill (Waiting capacity offset)
      (s.step unbounded capacity refill (.call (s.clock + offset) cost)) s') :
    (wait capacity refill (levelIn capacity refill base s) ⟨s.clock + offset, cost⟩ ≤
        s'.clock - s.clock → Admits capacity refill offset cost s') ∧
    (s'.clock - s.clock <
        wait capacity refill (levelIn capacity refill base s) ⟨s.clock + offset, cost⟩ →
      Refuses capacity refill offset cost s') := by
  have nonneg : 0 ≤ capacity := positive.le.trans le
  have called := call_onTime pos nonneg (takes_unbounded _) h positive
  obtain ⟨later, -⟩ := waiting_onTime pos nonneg called run
  have level : levelIn capacity refill base s' = (reference capacity refill).after
      (levelIn capacity refill base s) ⟨s.clock + offset, cost⟩ := by
    rw [← levelIn_call unbounded, levelIn, levelIn, waiting_history run]
  obtain ⟨remaining, reply⟩ := reply_onTime pos later cost
  have granted := grants_after_denied (reference_rate pos) le denied (s'.clock + offset)
  rw [level] at reply
  have span : s'.clock + offset - (s.clock + offset) = s'.clock - s.clock := by ring
  rw [span] at granted
  constructor
  · intro waited
    exact ⟨_, reply, granted.mpr waited⟩
  · intro early
    refine ⟨_, reply, Bool.eq_false_iff.mpr fun allowed => ?_⟩
    exact not_lt.mpr (granted.mp allowed) early

theorem header_least {ms : Nat} (some_wait : 1 ≤ ms) {r : TokenBucketResult}
    (denied : r.allowed = false) (told : r.retryAfterMs = .ofInt ms) :
    ∃ seconds : Nat, (∀ limit, (decisionOf limit (.ok r)).headers =
        some ⟨limit, Num.max (.ofInt 0) r.remaining, some (.ofInt seconds)⟩) ∧
      IsLeast {n : Nat | 1 ≤ n ∧ ms ≤ 1000 * n} seconds := by
  have positive : (0 : Rat) < ms / 1000 := by
    have cast : (1 : Rat) ≤ ms := by exact_mod_cast some_wait
    positivity
  have one : 1 ≤ ((ms : Rat) / 1000).ceil := by
    have above : ((0 : Int) : Rat) < ((ms : Rat) / 1000).ceil := by
      exact_mod_cast lt_of_lt_of_le positive Rat.le_ceil
    have whole : 0 < ((ms : Rat) / 1000).ceil := by exact_mod_cast above
    omega
  obtain ⟨seconds, same⟩ := Int.eq_ofNat_of_zero_le (by omega : 0 ≤ ((ms : Rat) / 1000).ceil)
  refine ⟨seconds, ?_, ⟨by omega, ?_⟩, fun n hn => ?_⟩
  · intro limit
    have at_least : (1 : Rat) ≤ seconds := by exact_mod_cast (by omega : 1 ≤ seconds)
    simp [decisionOf, denied, told, Num.ofInt, Num.div, Num.ceil, same, at_least]
  · have covered : (ms : Rat) / 1000 ≤ seconds := by
      have le := Rat.le_ceil (x := (ms : Rat) / 1000)
      rw [same] at le
      exact_mod_cast le
    have scaled : (ms : Rat) ≤ 1000 * seconds := by linarith
    exact_mod_cast scaled
  · have scaled : (ms : Rat) ≤ 1000 * n := by exact_mod_cast hn.2
    have covered : (ms : Rat) / 1000 ≤ (n : Int) := by
      push_cast
      linarith
    have least := Rat.ceil_le_iff.mpr covered
    omega

/-- `retryAfterMs` is enough and no more than that, and the header rounds it up to seconds. -/
theorem retry_after_exact (capacity refill offset start cost : Rat) (positive : 0 < cost)
    (le : cost ≤ capacity) (some_refill : 0 < refill) (s : BucketKey)
    (run : Reach unbounded capacity refill (Punctual capacity offset) (unused start) s)
    (r : TokenBucketResult) (reply : s.reply capacity refill offset cost = .ok r)
    (denied : r.allowed = false) :
    ∃ ms seconds : Nat, r.retryAfterMs = .ofInt ms ∧
      (∀ limit, (decisionOf limit (.ok r)).headers =
        some ⟨limit, Num.max (.ofInt 0) r.remaining, some (.ofInt seconds)⟩) ∧
      IsLeast {n : Nat | 1 ≤ n ∧ ms ≤ 1000 * n} seconds ∧
      ∀ s', Reach unbounded capacity refill (Waiting capacity offset)
          (s.step unbounded capacity refill (.call (s.clock + offset) cost)) s' →
        (s.clock + ms ≤ s'.clock → Admits capacity refill offset cost s') ∧
        (s.clock + 1000 * seconds ≤ s'.clock → Admits capacity refill offset cost s') ∧
        ∀ k : Nat, k < ms → s'.clock = s.clock + k → Refuses capacity refill offset cost s' := by
  have nonneg : 0 ≤ capacity := positive.le.trans le
  have h := onTime some_refill nonneg run
  obtain ⟨remaining, told⟩ := reply_onTime some_refill h cost
  cases reply.symm.trans told
  dsimp only at denied
  have short : (reference capacity refill).refilled (levelIn capacity refill (start + offset) s)
      (s.clock + offset) < cost := by simpa [Bucket.grants] using denied
  have lacks : 0 < wait capacity refill (levelIn capacity refill (start + offset) s)
      ⟨s.clock + offset, cost⟩ := div_pos (sub_pos.mpr short) (reference_rate some_refill)
  have admits := fun s' => @admits_iff _ _ _ _ _ s' some_refill _ positive le h denied
  generalize wait capacity refill (levelIn capacity refill (start + offset) s)
    ⟨s.clock + offset, cost⟩ = w at lacks admits ⊢
  have some_wait : 0 < w.ceil := by exact_mod_cast lt_of_lt_of_le lacks Rat.le_ceil
  obtain ⟨ms, same⟩ := Int.eq_ofNat_of_zero_le some_wait.le
  have waited : w ≤ ms := by
    have ceil := Rat.le_ceil (x := w)
    rw [same] at ceil
    exact_mod_cast ceil
  have tight : ∀ k : Nat, k < ms → (k : Rat) < w := by
    intro k lt
    have below : ((k : Int) : Rat) < w := Rat.lt_ceil_iff.mp (by omega)
    exact_mod_cast below
  simp only [denied, Bool.false_eq_true, if_false, same]
  obtain ⟨seconds, header, least⟩ := header_least (show 1 ≤ ms by omega)
    (r := ⟨false, remaining, .ofInt ms⟩) rfl rfl
  refine ⟨ms, seconds, rfl, header, least, fun s' later => ⟨fun time => ?_, fun time => ?_, ?_⟩⟩
  · exact (admits s' later).1 (by linarith)
  · have covered : (ms : Rat) ≤ 1000 * seconds := by exact_mod_cast least.1.2
    exact (admits s' later).1 (by linarith)
  · intro k lt time
    refine (admits s' later).2 ?_
    rw [time, add_sub_cancel_left]
    exact tight k lt

/- An empty bucket of one token, half a second after it has been emptied. -/
def halfFull : BucketKey := [.call 7 1, .tick 500].foldl (BucketKey.step unbounded 1 1) (unused 0)

theorem retry_after_exact_half : ∃ r, halfFull.reply 1 1 7 1 = .ok r ∧ r.allowed = false ∧
    ∃ ms seconds : Nat, r.retryAfterMs = .ofInt ms ∧
      (∀ limit, (decisionOf limit (.ok r)).headers =
        some ⟨limit, Num.max (.ofInt 0) r.remaining, some (.ofInt seconds)⟩) ∧
      IsLeast {n : Nat | 1 ≤ n ∧ ms ≤ 1000 * n} seconds ∧
      ∀ s', Reach unbounded 1 1 (Waiting 1 7)
          (halfFull.step unbounded 1 1 (.call (halfFull.clock + 7) 1)) s' →
        (halfFull.clock + ms ≤ s'.clock → Admits 1 1 7 1 s') ∧
        (halfFull.clock + 1000 * seconds ≤ s'.clock → Admits 1 1 7 1 s') ∧
        ∀ k : Nat, k < ms → s'.clock = halfFull.clock + k → Refuses 1 1 7 1 s' := by
  have run : Follows unbounded 1 1 (Punctual 1 7) (unused 0) [.call 7 1, .tick 500] := by
    decide +kernel
  have decided : (halfFull.reply 1 1 7 1).toOption = some ⟨false, fin 0, fin 500⟩ := by
    decide +kernel
  cases reply : halfFull.reply 1 1 7 1 with
  | error error =>
    rw [reply] at decided
    cases decided
  | ok r =>
    rw [reply] at decided
    obtain rfl := Option.some.inj decided
    exact ⟨_, rfl, rfl, retry_after_exact 1 1 7 0 1 (by decide) (by decide) (by decide) halfFull
      run.reach _ reply rfl⟩

/-- A sequence of calls without some of the denied ones gets the answers that the others got. -/
theorem denied_calls_free (capacity refill offset start : Rat) (some_capacity : 0 < capacity)
    (some_refill : 0 < refill) (s s' : BucketKey)
    (run : Reach unbounded capacity refill (Punctual capacity offset) (unused start) s)
    (run' : Reach unbounded capacity refill (Punctual capacity offset) (unused start) s')
    (kept : List Entry) (without : Without (fun e => e.allowed = false) s.history kept)
    (same : s'.history.map (·.call) = kept.map (·.call)) :
    s'.history.map (·.decision) = kept.map (·.decision) := by
  have h := (onTime some_refill some_capacity.le run).agrees
  have h' := (onTime some_refill some_capacity.le run').agrees
  have shows : ∀ (e : Entry) d, e.allowed = false → e.decision = reported d → d.1 = false := by
    intro e d denied shown
    rw [Entry.allowed, shown] at denied
    exact denied
  have thinned := decisions_without without (reference_rate some_refill).le shows
    (fun _ _ => rfl) h.forward h.decisions
  rw [thinned, h'.decisions, same]

/- Two of the three calls, without the one that is denied. -/
def twoCalls : List Act := [.call 7 1, .tick 2500, .call 2507 1]

theorem denied_calls_free_three : ∃ s s' : BucketKey,
    s.history.map (·.decision) = [some (true, fin 0), some (false, fin 0), some (true, fin 0)] ∧
    s'.history.map (·.call) = [⟨7, 1⟩, ⟨2507, 1⟩] ∧
    s'.history.map (·.decision) = [some (true, fin 0), some (true, fin 0)] := by
  have run : Follows unbounded 1 1 (Punctual 1 7) (unused 0) threeCalls := by decide +kernel
  have run' : Follows unbounded 1 1 (Punctual 1 7) (unused 0) twoCalls := by decide +kernel
  refine ⟨threeCalls.foldl (BucketKey.step unbounded 1 1) (unused 0),
    twoCalls.foldl (BucketKey.step unbounded 1 1) (unused 0), by decide +kernel, rfl, ?_⟩
  have same := denied_calls_free 1 1 7 0 (by decide) (by decide) _ _ run.reach run'.reach
    [_, _] (.keep (.drop (by decide +kernel) (.keep .nil))) rfl
  exact same.trans (by decide +kernel)

end Overbook.RateLimit
