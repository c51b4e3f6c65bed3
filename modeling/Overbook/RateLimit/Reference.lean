import Overbook.RateLimit.Script
import Overbook.TokenBucket

/-! With exact arithmetic the script is a token bucket, as long as no caller's time lies before
the stored one and no key is removed before its bucket has had the time to fill. -/
namespace Overbook.RateLimit

open Overbook.Num TokenBucket

/- The bucket that the script stands for; time is in milliseconds. -/
def reference (capacity refill : Rat) : Bucket Rat := ⟨capacity, refill / 1000⟩

def full (capacity base : Rat) : Level Rat := ⟨capacity, base⟩

def Entry.call (e : Entry) : Call Rat := ⟨e.now, e.cost⟩

/- The decision and the reported tokens, `math.floor(tokens)`. -/
def reported (d : Bool × Rat) : Option (Bool × Num) := some (d.1, .fin d.2.floor)

variable {fits : Rat → Bool} {capacity refill : Rat}

theorem lt_fin (a b : Rat) : (fin a).lt (fin b) = decide (a < b) := by
  rcases lt_trichotomy a b with less | same | more
  · simp [Num.lt, Num.le, less, less.le, less.ne]
  · simp [Num.lt, same]
  · simp [Num.lt, Num.le, not_le.mpr more, not_lt.mpr more.le]

theorem luaMax_fin (a b : Rat) : luaMax (fin a) (fin b) = fin (max a b) := by
  rw [luaMax, lt_fin]
  rcases lt_or_ge a b with less | more
  · simp [less, max_eq_right less.le]
  · simp [not_lt.mpr more, max_eq_left more]

theorem luaMin_fin (a b : Rat) : luaMin (fin a) (fin b) = fin (min a b) := by
  rw [luaMin, lt_fin]
  rcases lt_or_ge b a with less | more
  · simp [less, min_eq_right less.le]
  · simp [not_lt.mpr more, min_eq_left more]

theorem sub_fin (a b : Rat) : (fin a).sub (fin b) = fin (a - b) := by
  simp [Num.sub, Num.neg, Num.add, sub_eq_add_neg]

theorem div_fin (a : Rat) {b : Rat} (h : b ≠ 0) : (fin a).div (fin b) = fin (a / b) := by
  simp [Num.div, h]

def lifetime (capacity refill : Rat) : Rat := ((capacity / refill * 1000).ceil + 1000 : Int)

theorem expiry_exact (h : refill ≠ 0) :
    expiry (fin capacity) (fin refill) = fin (lifetime capacity refill) := by
  simp [expiry, div_fin _ h, Num.mul, Num.ofInt, Num.ceil, Num.add, lifetime]

theorem lifetime_fills (capacity : Rat) (pos : 0 < refill) :
    capacity ≤ lifetime capacity refill * (refill / 1000) := by
  have ceil : capacity / refill * 1000 ≤ ((capacity / refill * 1000).ceil : Rat) := Rat.le_ceil
  have time : capacity / refill * 1000 ≤ lifetime capacity refill := by
    unfold lifetime
    push_cast
    linarith
  have rate : 0 ≤ refill / 1000 := by positivity
  have filled : capacity / refill * 1000 * (refill / 1000) = capacity := by
    field_simp
  calc capacity = capacity / refill * 1000 * (refill / 1000) := filled.symm
    _ ≤ lifetime capacity refill * (refill / 1000) := mul_le_mul_of_nonneg_right time rate

theorem lifetime_pos (pos : 0 < refill) (nonneg : 0 ≤ capacity) : 0 < lifetime capacity refill := by
  have ceil : 0 ≤ (capacity / refill * 1000).ceil := by
    have time : 0 ≤ capacity / refill * 1000 := by positivity
    exact_mod_cast time.trans Rat.le_ceil
  unfold lifetime
  exact_mod_cast (by omega : 0 < (capacity / refill * 1000).ceil + 1000)

def Takes (fits : Rat → Bool) (capacity refill redisNow : Rat) : Prop :=
  fits (lifetime capacity refill) ∧ fits (redisNow + lifetime capacity refill)

theorem takes_unbounded (redisNow : Rat) : Takes unbounded capacity refill redisNow := ⟨rfl, rfl⟩

theorem refilled_stored {hash : Hash} {l : Level Rat} (tokens : hash.tokens = fin l.tokens)
    (ts : hash.ts = fin l.since) {now : Rat} (later : l.since ≤ now) :
    refilled (some hash) (fin capacity) (fin refill) (fin now) =
      fin ((reference capacity refill).refilled l now) := by
  have elapsed : (0 : Rat) ≤ now - l.since := sub_nonneg.mpr later
  have same : (now - l.since) / 1000 * refill = (now - l.since) * (refill / 1000) := by ring
  simp [refilled, tokens, ts, sub_fin, Num.ofInt, luaMax_fin, max_eq_right elapsed, div_fin,
    Num.mul, Num.add, luaMin_fin, Bucket.refilled, reference, same]

theorem refilled_missing (now : Rat) :
    refilled none (fin capacity) (fin refill) (fin now) = fin capacity := by
  simp [refilled, sub_fin, Num.ofInt, luaMax_fin, div_fin, Num.mul, Num.add, luaMin_fin]

/- The script replies with an error exactly where PEXPIRE does not take the time to live. -/
theorem reply_takes (nonzero : refill ≠ 0) {redisNow : Rat}
    (takes : Takes fits capacity refill redisNow) (hash : Option Hash) (now cost : Rat) :
    ∃ remaining retryAfterMs,
      (tokenBucket fits redisNow hash (fin capacity) (fin refill) (fin now) (fin cost)).2 =
        .ok ⟨(fin cost).le (refilled hash (fin capacity) (fin refill) (fin now)), remaining,
          retryAfterMs⟩ := by
  have whole : (lifetime capacity refill).den = 1 := by simp [lifetime]
  simp only [tokenBucket, expiry_exact nonzero, pexpire, whole, takes.1, takes.2, and_self, if_true]
  exact ⟨_, _, rfl⟩

theorem expiry_zero (capacity ms : Rat) : expiry (fin capacity) (fin 0) ≠ fin ms := by
  rcases lt_trichotomy capacity 0 with neg | zero | pos
  · simp [expiry, Num.div, neg.ne, not_lt.mpr neg.le, Num.mul, Num.ofInt, Num.ceil, Num.add]
  · simp [expiry, Num.div, zero, Num.mul, Num.ofInt, Num.ceil, Num.add]
  · simp [expiry, Num.div, pos.ne', pos, Num.mul, Num.ofInt, Num.ceil, Num.add]

theorem reply_rejects {redisNow : Rat} (h : refill = 0 ∨ ¬ Takes fits capacity refill redisNow)
    (hash : Option Hash) (now cost : Rat) :
    ∃ error, (tokenBucket fits redisNow hash (fin capacity) (fin refill) (fin now) (fin cost)).2 =
      .error error := by
  have rejected : ∀ written, pexpire fits redisNow (expiry (fin capacity) (fin refill)) written =
      .error notAnInteger := by
    intro written
    by_cases zero : refill = 0
    · subst zero
      cases ms : expiry (fin capacity) (fin 0) with
      | fin q => exact absurd ms (expiry_zero capacity q)
      | nan => rfl
      | inf => rfl
      | ninf => rfl
    · have refused := h.resolve_left zero
      rw [expiry_exact zero, pexpire, if_neg]
      exact fun taken => refused taken.2
  refine ⟨notAnInteger, ?_⟩
  simp only [tokenBucket, rejected]

/-- The reply of the script, once the refill is known, and what it stores. -/
theorem tokenBucket_takes (nonzero : refill ≠ 0) {redisNow : Rat}
    (takes : Takes fits capacity refill redisNow) (cost : Rat) {now tokens : Rat} {hash : Option Hash}
    (level : refilled hash (fin capacity) (fin refill) (fin now) = fin tokens) :
    ∃ retryAfterMs, tokenBucket fits redisNow hash (fin capacity) (fin refill) (fin now) (fin cost) =
      (if 0 < lifetime capacity refill then
          some ⟨fin (if cost ≤ tokens then tokens - cost else tokens), fin now,
            some (redisNow + lifetime capacity refill)⟩
        else none,
        .ok ⟨cost ≤ tokens, fin (if cost ≤ tokens then tokens - cost else tokens).floor,
          retryAfterMs⟩) := by
  have whole : (lifetime capacity refill).den = 1 := by simp [lifetime]
  have decided : (fin cost).le (fin tokens) = decide (cost ≤ tokens) := rfl
  have left : (if decide (cost ≤ tokens) = true then (fin tokens).sub (fin cost) else fin tokens) =
      fin (if cost ≤ tokens then tokens - cost else tokens) := by
    by_cases enough : cost ≤ tokens <;> simp [enough, sub_fin]
  simp only [tokenBucket, expiry_exact nonzero, pexpire, whole, takes.1, takes.2, and_self, if_true,
    level, decided, left]
  exact ⟨_, rfl⟩

theorem tokenBucket_exact (pos : 0 < refill) (nonneg : 0 ≤ capacity) {redisNow : Rat}
    (takes : Takes fits capacity refill redisNow) (cost : Rat) {now : Rat} {hash : Option Hash}
    {l : Level Rat}
    (level : refilled hash (fin capacity) (fin refill) (fin now) =
      fin ((reference capacity refill).refilled l now)) :
    ∃ retryAfterMs, tokenBucket fits redisNow hash (fin capacity) (fin refill) (fin now) (fin cost) =
      (some ⟨fin ((reference capacity refill).after l ⟨now, cost⟩).tokens, fin now,
          some (redisNow + lifetime capacity refill)⟩,
        .ok ⟨(reference capacity refill).grants l ⟨now, cost⟩,
          fin ((reference capacity refill).after l ⟨now, cost⟩).tokens.floor, retryAfterMs⟩) := by
  obtain ⟨retryAfterMs, reply⟩ := tokenBucket_takes pos.ne' takes cost level
  have left : ((reference capacity refill).after l ⟨now, cost⟩).tokens =
      if cost ≤ (reference capacity refill).refilled l now
      then (reference capacity refill).refilled l now - cost
      else (reference capacity refill).refilled l now := by
    simp [Bucket.after, Bucket.grants]
  rw [reply, if_pos (lifetime_pos pos nonneg), left]
  exact ⟨retryAfterMs, rfl⟩

/-- The key and its history agree with the reference bucket, which was full at `base`. -/
structure Agrees (capacity refill base : Rat) (s : BucketKey) : Prop where
  forward : Forward base (s.history.map (·.call))
  decisions : s.history.map (·.decision) =
    ((reference capacity refill).decisions (full capacity base) (s.history.map (·.call))).map
      reported
  stored : ∀ hash, s.hash = some hash →
    hash.tokens = fin ((reference capacity refill).run (full capacity base)
      (s.history.map (·.call))).tokens ∧
    hash.ts = fin ((reference capacity refill).run (full capacity base)
      (s.history.map (·.call))).since
  spent : ∀ x y, (reference capacity refill).spent x y (full capacity base)
    (s.history.map (·.call)) =
      (s.history.map fun e => if e.allowed ∧ x ≤ e.now ∧ e.now ≤ y then e.cost else 0).sum

def levelIn (capacity refill base : Rat) (s : BucketKey) : Level Rat :=
  (reference capacity refill).run (full capacity base) (s.history.map (·.call))

/-- What a call must bring along: its time is not before the last one, and if there is no key
then the bucket is full by now. -/
structure InTime (capacity refill base : Rat) (s : BucketKey) (now : Rat) : Prop where
  later : (levelIn capacity refill base s).since ≤ now
  missing : s.hash = none →
    (reference capacity refill).refilled (levelIn capacity refill base s) now = capacity

variable {base : Rat} {s : BucketKey}

theorem full_valid (nonneg : 0 ≤ capacity) : (full capacity base).Valid (reference capacity refill) :=
  ⟨nonneg, le_rfl⟩

theorem levelIn_valid (pos : 0 < refill) (nonneg : 0 ≤ capacity) (h : Agrees capacity refill base s) :
    (levelIn capacity refill base s).Valid (reference capacity refill) := by
  have rate : 0 ≤ (reference capacity refill).rate := by
    unfold reference
    positivity
  exact run_valid (full_valid nonneg) rate h.forward

theorem unused_agrees (base clock : Rat) : Agrees capacity refill base (unused clock) :=
  ⟨trivial, rfl, nofun, fun _ _ => rfl⟩

theorem refilled_agrees {now : Rat} (h : Agrees capacity refill base s)
    (inTime : InTime capacity refill base s now) :
    refilled s.hash (fin capacity) (fin refill) (fin now) =
      fin ((reference capacity refill).refilled (levelIn capacity refill base s) now) := by
  cases key : s.hash with
  | none => rw [refilled_missing, inTime.missing key]
  | some hash =>
    obtain ⟨tokens, ts⟩ := h.stored hash key
    exact refilled_stored tokens ts inTime.later

theorem agrees_replies (h : Agrees capacity refill base s) :
    ∀ e ∈ s.history, ∃ r, e.result = .ok r := by
  intro e he
  have decided : e.decision ∈ s.history.map (·.decision) := List.mem_map_of_mem he
  rw [h.decisions] at decided
  obtain ⟨d, _, same⟩ := List.mem_map.mp decided
  cases reply : e.result with
  | error error =>
    rw [Entry.decision, reply] at same
    cases same
  | ok r => exact ⟨r, rfl⟩

theorem step_call (fits : Rat → Bool) (s : BucketKey) (now cost : Rat) :
    s.step fits capacity refill (.call now cost) =
      ⟨s.clock, (tokenBucket fits s.clock s.hash (fin capacity) (fin refill) (fin now) (fin cost)).1,
        s.history ++ [⟨s.clock, now, cost,
          (tokenBucket fits s.clock s.hash (fin capacity) (fin refill) (fin now) (fin cost)).2⟩]⟩ := rfl

/-- A call in time keeps the agreement. -/
theorem call_agrees (pos : 0 < refill) (nonneg : 0 ≤ capacity)
    (takes : Takes fits capacity refill s.clock) (h : Agrees capacity refill base s) {now cost : Rat}
    (positive : 0 ≤ cost) (inTime : InTime capacity refill base s now) :
    Agrees capacity refill base (s.step fits capacity refill (.call now cost)) := by
  obtain ⟨retryAfterMs, reply⟩ := tokenBucket_exact pos nonneg takes cost
    (refilled_agrees h inTime)
  rw [step_call, reply]
  obtain ⟨before, start⟩ := forward_run (l := full capacity base) (b := reference capacity refill)
    h.forward rfl
  constructor
  · rw [List.map_append]
    refine forward_append h.forward (start.trans inTime.later) positive ?_
    exact fun d hd => (before d hd).trans inTime.later
  · simp only [List.map_append, List.map_cons, List.map_nil, decisions_append, h.decisions]
    rfl
  · rintro hash ⟨⟩
    simp only [List.map_append, List.map_cons, List.map_nil, run_append]
    exact ⟨rfl, rfl⟩
  · intro x y
    simp only [List.map_append, List.map_cons, List.map_nil, spent_append, h.spent, List.sum_append,
      List.sum_cons, List.sum_nil, add_zero]
    rfl

end Overbook.RateLimit
