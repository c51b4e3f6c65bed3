import Overbook.RateLimit.Exact
import Overbook.RateLimit.Guard

/-! Which configurations the limiter enforces: those whose expiry PEXPIRE takes, and that do not
drain the bucket. For all others the guard lets any number of requests through. -/
namespace Overbook.RateLimit

open Overbook.Num TokenBucket

/-- No window sees more requests let through for one identity than the configuration says. -/
def Enforced (config : RateLimitConfig) (options : RateLimitOptions) : Prop :=
  ∀ clock s, 0 ≤ clock → clock ≤ lastDate → Limiter.Reach config options { clock } s →
    ∀ identity x T, 0 ≤ T → (letThrough identity x (x + 1000 * T) s.seen : Rat) ≤
      max 0 (config.capacity : Rat) + max 0 config.refillPerSecond * T

/-- The expiry is an integer of Redis, as a deadline too, and the bucket fills or is never open. The
arithmetic of the script is exact here: no double is rounded. -/
structure Enforceable (capacity : Int) (refill : Rat) : Prop where
  divisor : refill ≠ 0
  fills : 0 < refill ∨ capacity ≤ 0
  lower : -2 ^ 63 ≤ lifetime capacity refill
  upper : lastDate + lifetime capacity refill < 2 ^ 63

variable {capacity : Int} {refill clock : Rat} {b : BucketKey}

theorem int64_iff (q : Rat) : int64 q ↔ -2 ^ 63 ≤ q ∧ q < 2 ^ 63 := by simp [int64]

theorem Enforceable.takes (h : Enforceable capacity refill) (past : 0 ≤ clock)
    (date : clock ≤ lastDate) : Takes int64 capacity refill clock := by
  have lower := h.lower
  have upper := h.upper
  unfold Takes
  rw [int64_iff, int64_iff]
  refine ⟨⟨lower, ?_⟩, ?_, ?_⟩ <;> linarith

theorem dated (past : 0 ≤ clock) (date : clock ≤ lastDate)
    (run : Reach int64 capacity refill OnClock (unused clock) b) : 0 ≤ b.clock ∧ b.clock ≤ lastDate := by
  induction run with
  | refl => exact ⟨past, date⟩
  | tail _ step ih =>
    obtain ⟨a, ok, rfl⟩ := step
    cases a with
    | tick d => exact ⟨add_nonneg ih.1 ok.1, ok.2⟩
    | call now cost => exact ih
    | removed => exact ih

/-! With a bucket that fills, the script is the exact one. -/

theorem fills_onTime (h : Enforceable capacity refill) (pos : 0 < refill) (some_capacity : 0 < capacity)
    (past : 0 ≤ clock) (date : clock ≤ lastDate)
    (run : Reach int64 capacity refill OnClock (unused clock) b) :
    OnTime capacity refill 0 (clock + 0) b ∧ ∀ e ∈ b.history, e.cost = 1 := by
  have positive : (0 : Rat) < capacity := by exact_mod_cast some_capacity
  have enough : (1 : Rat) ≤ capacity := by exact_mod_cast some_capacity
  induction run with
  | refl => exact ⟨onTime pos positive.le .refl, nofun⟩
  | @tail b _ before step ih =>
    obtain ⟨onTime, costs⟩ := ih
    obtain ⟨a, ok, rfl⟩ := step
    obtain ⟨past', date'⟩ := dated past date before
    have takes := h.takes past' date'
    cases a with
    | tick d => exact ⟨onTime_step pos positive.le takes (a := .tick d) ok.1 onTime, costs⟩
    | call now cost =>
      obtain ⟨rfl, rfl⟩ := ok
      have punctual : Punctual capacity 0 b (.call (b.clock + 0) 1) := ⟨rfl, one_pos, enough⟩
      rw [add_zero] at punctual
      refine ⟨onTime_step pos positive.le takes punctual onTime, ?_⟩
      intro e he
      rcases List.mem_append.mp he with old | new
      · exact costs e old
      · rw [List.mem_singleton.mp new]
    | removed => exact ⟨onTime_step pos positive.le takes (a := .removed) ok onTime, costs⟩

/- Where every call has a reply, the guard lets through what the script grants. -/
theorem passes_granted {history : List Entry} (costs : ∀ e ∈ history, e.cost = 1)
    (replies : ∀ e ∈ history, ∃ r, e.result = .ok r) (x y : Rat) :
    (passes capacity x y history : Rat) = granted x y history := by
  induction history with
  | nil => rfl
  | cons e history ih =>
    have later := ih (fun e he => costs e (List.mem_cons_of_mem _ he))
      fun e he => replies e (List.mem_cons_of_mem _ he)
    obtain ⟨r, reply⟩ := replies e List.mem_cons_self
    have passed : (decisionOf capacity e.result).passed = e.allowed := by
      rw [reply, Entry.allowed, Entry.decision, reply]
      cases allowed : r.allowed <;>
        simp [decisionOf, Decision.passed, allowed, Except.toOption]
    unfold passes at later
    rw [passes, granted, List.countP_cons, List.map_cons, List.sum_cons, Nat.cast_add, later, passed,
      costs e List.mem_cons_self, granted, add_comm]
    split <;> simp_all

/-! A bucket without room is never open. -/

theorem le_luaMin {cost capacity : Rat} {a : Num} (h : (fin cost).le (luaMin (fin capacity) a)) :
    cost ≤ capacity := by
  cases a with
  | nan => simpa [luaMin, Num.lt, Num.le] using h
  | ninf => simp [luaMin, Num.lt, Num.le] at h
  | fin q =>
    rw [luaMin_fin] at h
    have within : cost ≤ min capacity q := by simpa [Num.le] using h
    exact within.trans (min_le_left ..)
  | inf => simpa [luaMin, Num.lt, Num.le] using h

theorem never_open (h : Enforceable capacity refill) (closed : capacity ≤ 0) (past : 0 ≤ clock)
    (date : clock ≤ lastDate) (run : Reach int64 capacity refill OnClock (unused clock) b) :
    ∀ e ∈ b.history, (decisionOf capacity e.result).passed = false := by
  induction run with
  | refl => exact nofun
  | @tail b _ before step ih =>
    obtain ⟨a, ok, rfl⟩ := step
    obtain ⟨past', date'⟩ := dated past date before
    cases a with
    | tick d => exact ih
    | call now cost =>
      obtain ⟨rfl, rfl⟩ := ok
      obtain ⟨remaining, retryAfterMs, reply⟩ := reply_takes h.divisor (h.takes past' date') b.hash
        b.clock 1
      have denied : (fin 1).le (refilled b.hash (fin capacity) (fin refill) (fin b.clock)) = false := by
        rw [Bool.eq_false_iff]
        intro granted
        have room : (1 : Rat) ≤ capacity := le_luaMin granted
        have whole : 1 ≤ capacity := by exact_mod_cast room
        omega
      rw [step_call]
      intro e he
      rcases List.mem_append.mp he with old | new
      · exact ih e old
      · rw [List.mem_singleton.mp new, reply, denied]
        rfl
    | removed => exact ih

theorem enforceable_enforced (h : Enforceable capacity refill) (bucket : String) :
    Enforced ⟨true, capacity, refill⟩ (bookingOptions bucket) := by
  intro clock s past date run identity x T window
  have single := view_reach identity run
  have inflow : 0 ≤ max 0 refill * T := mul_nonneg (le_max_left ..) window
  have room : (0 : Rat) ≤ max 0 (capacity : Rat) := le_max_left ..
  rw [letThrough_view run]
  rcases le_or_gt capacity 0 with closed | some_capacity
  · have none : passes capacity x (x + 1000 * T) (s.view (bookingOptions bucket) identity).history
        = 0 := by
      apply List.countP_eq_zero.mpr
      intro e he
      simp [never_open h closed past date single e he]
    rw [none]
    simp only [Nat.cast_zero]
    linarith
  · have pos : 0 < refill := h.fills.resolve_right (not_le.mpr some_capacity)
    obtain ⟨onTime, costs⟩ := fills_onTime h pos some_capacity past date single
    have positive : (0 : Rat) ≤ capacity := by exact_mod_cast some_capacity.le
    rw [passes_granted costs (agrees_replies onTime.agrees), max_eq_right positive, max_eq_right pos.le]
    exact granted_le pos positive onTime x window

/-! Where PEXPIRE refuses the expiry, every call ends in an error, and the guard takes every error
for an outage. -/

theorem passes_append (history : List Entry) (e : Entry) (x y : Rat) :
    passes capacity x y (history ++ [e]) = passes capacity x y history +
      if (decisionOf capacity e.result).passed ∧ x ≤ e.clock ∧ e.clock ≤ y then 1 else 0 := by
  simp [passes, List.countP_append, List.countP_singleton]

theorem flood (capacity : Int) (refill clock : Rat)
    (h : refill = 0 ∨ ¬ Takes int64 capacity refill clock) (n : Nat) :
    ∃ b, Reach int64 capacity refill OnClock (unused clock) b ∧ b.clock = clock ∧
      passes capacity clock clock b.history = n := by
  induction n with
  | zero => exact ⟨unused clock, .refl, rfl, rfl⟩
  | succ n ih =>
    obtain ⟨b, run, rfl, count⟩ := ih
    obtain ⟨error, reply⟩ := reply_rejects h b.hash b.clock 1
    refine ⟨_, run.tail ⟨.call b.clock 1, ⟨rfl, rfl⟩, rfl⟩, rfl, ?_⟩
    rw [step_call, passes_append, count, reply]
    simp [decisionOf, Decision.passed, Except.toOption]

/-! Where the bucket drains, its key lives for a second at most, and the next bucket is full. -/

/- After `k` calls at time 0: they have passed, and what is left suffices for the others. -/
structure FirstLife (capacity : Int) (k : Nat) (b : BucketKey) : Prop where
  clock : b.clock = 0
  passes : passes capacity 0 1000 b.history = k
  stored : ∀ hash, b.hash = some hash → ∃ tokens, hash.tokens = fin tokens ∧
    (capacity : Rat) - k ≤ tokens ∧ hash.ts = fin 0 ∧
    ∃ deadline, hash.expiresAt = some deadline ∧ deadline ≤ 1000

theorem call_passes (nonzero : refill ≠ 0) (takes : Takes int64 capacity refill b.clock)
    (within : 0 ≤ b.clock ∧ b.clock ≤ 1000) {tokens : Rat}
    (level : refilled b.hash (fin capacity) (fin refill) (fin b.clock) = fin tokens)
    (enough : 1 ≤ tokens) :
    passes capacity 0 1000 (b.step int64 capacity refill (.call b.clock 1)).history =
      passes capacity 0 1000 b.history + 1 := by
  obtain ⟨retryAfterMs, reply⟩ := tokenBucket_takes nonzero takes 1 level
  rw [step_call, passes_append, reply]
  simp [decisionOf, Decision.passed, Except.toOption, enough, within]

theorem lifetime_draining (neg : refill < 0) (some_capacity : 0 < capacity) :
    lifetime capacity refill ≤ 1000 := by
  have positive : (0 : Rat) < capacity := by exact_mod_cast some_capacity
  have quotient : (capacity : Rat) / refill * 1000 ≤ (0 : Int) := by
    have le := div_nonpos_of_nonneg_of_nonpos positive.le neg.le
    push_cast
    linarith
  have ceil : ((capacity : Rat) / refill * 1000).ceil ≤ 0 := Rat.ceil_le_iff.mpr quotient
  unfold lifetime
  exact_mod_cast (by omega : ((capacity : Rat) / refill * 1000).ceil + 1000 ≤ 1000)

theorem firstLife_call (neg : refill < 0) (some_capacity : 0 < capacity)
    (takes : Takes int64 capacity refill 0) {k : Nat} (room : (k : Int) < capacity)
    (h : FirstLife capacity k b) :
    FirstLife capacity (k + 1) (b.step int64 capacity refill (.call b.clock 1)) := by
  have one_left : (k : Rat) + 1 ≤ capacity := by exact_mod_cast room
  have some_k : (0 : Rat) ≤ k := Nat.cast_nonneg k
  obtain ⟨tokens, level, enough⟩ : ∃ tokens, refilled b.hash (fin capacity) (fin refill)
      (fin b.clock) = fin tokens ∧ (capacity : Rat) - k ≤ tokens := by
    rw [h.clock]
    cases key : b.hash with
    | none => exact ⟨capacity, refilled_missing 0, by linarith⟩
    | some hash =>
      obtain ⟨tokens, left, enough, ts, _⟩ := h.stored hash key
      refine ⟨_, refilled_stored (l := ⟨tokens, 0⟩) left ts le_rfl, ?_⟩
      simp only [Bucket.refilled, reference, sub_self, zero_mul, add_zero]
      exact le_min (by linarith) enough
  have clocked : Takes int64 capacity refill b.clock := h.clock ▸ takes
  have first : 1 ≤ tokens := by linarith
  constructor
  · exact h.clock
  · have within : 0 ≤ b.clock ∧ b.clock ≤ 1000 := by rw [h.clock]; norm_num
    rw [call_passes neg.ne clocked within level first, h.passes]
  · obtain ⟨retryAfterMs, reply⟩ := tokenBucket_takes neg.ne clocked 1 level
    rw [step_call, reply, h.clock]
    intro hash key
    simp only [if_pos first, zero_add] at key
    split at key
    · obtain rfl := Option.some.inj key
      refine ⟨_, rfl, ?_, rfl, _, rfl, lifetime_draining neg some_capacity⟩
      push_cast
      linarith
    · cases key

theorem firstLife (neg : refill < 0) (some_capacity : 0 < capacity)
    (takes : Takes int64 capacity refill 0) (k : Nat) (room : (k : Int) ≤ capacity) :
    ∃ b, Reach int64 capacity refill OnClock (unused 0) b ∧ FirstLife capacity k b := by
  induction k with
  | zero => exact ⟨unused 0, .refl, rfl, rfl, nofun⟩
  | succ k ih =>
    obtain ⟨b, run, life⟩ := ih (by omega)
    exact ⟨_, run.tail ⟨.call b.clock 1, ⟨rfl, rfl⟩, rfl⟩,
      firstLife_call neg some_capacity takes (by omega) life⟩

/- A full bucket of calls, one second, and one call more. -/
theorem second_life (neg : refill < 0) (some_capacity : 0 < capacity)
    (takes : ∀ clock, 0 ≤ clock → clock ≤ 1000 → Takes int64 capacity refill clock) :
    ∃ b, Reach int64 capacity refill OnClock (unused 0) b ∧
      passes capacity 0 1000 b.history = capacity.toNat + 1 := by
  have enough : (1 : Rat) ≤ capacity := by exact_mod_cast some_capacity
  obtain ⟨b, run, life⟩ := firstLife neg some_capacity (takes 0 le_rfl (by norm_num)) capacity.toNat
    (Int.toNat_of_nonneg some_capacity.le).le
  have date : b.clock + 1000 ≤ lastDate := by rw [life.clock]; norm_num [lastDate]
  have waited := run.tail ⟨.tick 1000, ⟨by norm_num, date⟩, rfl⟩
  obtain ⟨b', run', clock', history', gone⟩ : ∃ b', Reach int64 capacity refill OnClock (unused 0) b' ∧
      b'.clock = 1000 ∧ b'.history = b.history ∧ b'.hash = none := by
    have clock : b.clock + 1000 = 1000 := by rw [life.clock, zero_add]
    cases key : b.hash with
    | none => exact ⟨_, waited, clock, rfl, key⟩
    | some hash =>
      obtain ⟨_, _, _, _, deadline, expires, early⟩ := life.stored hash key
      have due : Due (b.clock + 1000) b.hash := ⟨deadline, by simp [key, expires], by rw [clock]; exact early⟩
      exact ⟨_, waited.tail ⟨.removed, due, rfl⟩, clock, rfl, rfl⟩
  have within : 0 ≤ b'.clock ∧ b'.clock ≤ 1000 := by rw [clock']; norm_num
  have level : refilled b'.hash (fin capacity) (fin refill) (fin b'.clock) = fin capacity := by
    rw [gone]
    exact refilled_missing _
  refine ⟨_, run'.tail ⟨.call b'.clock 1, ⟨rfl, rfl⟩, rfl⟩, ?_⟩
  rw [call_passes neg.ne (takes b'.clock within.1 within.2) within level enough, history', life.passes]

theorem not_enforced {bucket : String} (past : 0 ≤ clock) (date : clock ≤ lastDate)
    (run : Reach int64 capacity refill OnClock (unused clock) b) (x T : Rat) (window : 0 ≤ T)
    (many : max 0 (capacity : Rat) + max 0 refill * T < passes capacity x (x + 1000 * T) b.history) :
    ¬ Enforced ⟨true, capacity, refill⟩ (bookingOptions bucket) := by
  intro enforced
  have single : Reach int64 capacity refill OnClock
      (Limiter.view (bookingOptions bucket) (identify {}) { clock }) b := run
  obtain ⟨s, whole, rfl⟩ := reach_view {} single
  have few := enforced clock s past date whole (identify {}) x T window
  rw [letThrough_view whole] at few
  exact absurd few (not_le.mpr many)

theorem enforced_enforceable {bucket : String}
    (enforced : Enforced ⟨true, capacity, refill⟩ (bookingOptions bucket)) :
    Enforceable capacity refill := by
  have first : (0 : Rat) ≤ lastDate := by norm_num [lastDate]
  -- as many calls as wanted at one instant
  have accepted : ∀ clock, 0 ≤ clock → clock ≤ lastDate →
      refill ≠ 0 ∧ Takes int64 capacity refill clock := by
    intro clock past date
    by_contra refused
    obtain ⟨b, run, _, count⟩ := flood capacity refill clock (by tauto)
      (capacity.toNat + 1)
    refine not_enforced past date run clock 0 le_rfl ?_ enforced
    have room : max 0 (capacity : Rat) = (capacity.toNat : Rat) := by
      exact_mod_cast (by omega : max 0 capacity = (capacity.toNat : Int))
    rw [mul_zero, mul_zero, add_zero, add_zero, count, room]
    exact_mod_cast Nat.lt_succ_self _
  obtain ⟨divisor, lower, _⟩ := accepted 0 le_rfl first
  obtain ⟨_, _, upper⟩ := accepted lastDate first le_rfl
  refine ⟨divisor, ?_, ((int64_iff _).mp lower).1, ((int64_iff _).mp upper).2⟩
  by_contra drains
  have neg : refill < 0 := lt_of_le_of_ne (not_lt.mp fun pos => drains (.inl pos)) divisor
  have some_capacity : 0 < capacity := not_le.mp fun closed => drains (.inr closed)
  obtain ⟨b, run, count⟩ := second_life neg some_capacity fun clock past early =>
    (accepted clock past (early.trans (by norm_num [lastDate]))).2
  refine not_enforced le_rfl first run 0 1 zero_le_one ?_ enforced
  have positive : (0 : Rat) ≤ capacity := by exact_mod_cast some_capacity.le
  have whole : ((capacity.toNat : Int) : Rat) = capacity := by
    rw [Int.toNat_of_nonneg some_capacity.le]
  rw [max_eq_left neg.le, max_eq_right positive, zero_mul, add_zero, zero_add, mul_one, count, ← whole]
  exact_mod_cast Nat.lt_succ_self _

/-- The limiter enforces a configuration if and only if Redis takes the expiry that the script
computes from it, and the bucket fills or has no room at all. -/
theorem enforced_iff_enforceable (capacity : Int) (refill : Rat) (bucket : String) :
    Enforced ⟨true, capacity, refill⟩ (bookingOptions bucket) ↔ Enforceable capacity refill :=
  ⟨enforced_enforceable, fun h => enforceable_enforced h bucket⟩

/- One token and no refill: the expiry is infinite, and two requests at once both pass. -/
theorem no_refill_not_enforced : ¬ Enforced ⟨true, 1, 0⟩ (bookingOptions "booking") := by
  obtain ⟨b, run, _, count⟩ := flood 1 0 0 (.inl rfl) 2
  refine not_enforced le_rfl (by norm_num [lastDate]) run 0 0 le_rfl ?_
  rw [mul_zero, mul_zero, add_zero, add_zero, count]
  norm_num

end Overbook.RateLimit
