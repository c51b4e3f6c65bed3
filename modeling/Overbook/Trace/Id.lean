import Mathlib
import Overbook.Idempotency.Interceptor

/-! The trace id of a request. It is resolved twice, once for the log lines and once for the
request, and only the second one is written back. -/
namespace Overbook.Trace

open Idempotency (trim isSpace)

def traceHeader : String := "x-request-id"

def traceHeaderAlt : String := "x-trace-id"

def maxLength : Nat := 128

inductive Header where
  | one (value : String)
  | many (values : List String)

abbrev Headers := String → Option Header

def pick : Option Header → Option String
  | none => none
  | some (.one value) => (some (trim value)).filter (· ≠ "")
  | some (.many values) => (values.head?.map trim).filter (· ≠ "")

/- `[A-Za-z0-9._:-]`. -/
def isSafe (c : Char) : Bool := c.isAlphanum || ['.', '_', ':', '-'].contains c

/- `length` counts UTF-16 code units. -/
def codeUnits (s : String) : Nat := (s.toList.map fun c => if c.toNat < 0x10000 then 1 else 2).sum

def usable (candidate : String) : Bool :=
  candidate ≠ "" && codeUnits candidate ≤ maxLength && candidate.toList.all isSafe

abbrev Draw := Fin 16 → Fin 256

/- Version 4, variant 10. -/
def stamped (draw : Draw) (i : Fin 16) : Nat :=
  if i = 6 then draw i % 16 + 64 else if i = 8 then draw i % 64 + 128 else draw i

def hex (draw : Draw) (is : List (Fin 16)) : List Char :=
  is.flatMap fun i => [Nat.digitChar (stamped draw i / 16), Nat.digitChar (stamped draw i % 16)]

def randomUUID (draw : Draw) : String :=
  String.ofList (hex draw [0, 1, 2, 3] ++ '-' :: hex draw [4, 5] ++ '-' :: hex draw [6, 7] ++
    '-' :: hex draw [8, 9] ++ '-' :: hex draw [10, 11, 12, 13, 14, 15])

def candidate (headers : Headers) : Option String :=
  (pick (headers traceHeader)).or (pick (headers traceHeaderAlt))

def resolveTraceId (draw : Draw) (headers : Headers) : String :=
  ((candidate headers).filter usable).getD (randomUUID draw)

/- What of a request and its response carries the id; `id` is what pino binds to the log lines. -/
structure Request where
  headers : Headers
  id : Option String := none
  traceId : Option String := none
  responseHeader : Option String := none

/- The option `genReqId` of the logger. -/
def genReqId (draw : Draw) (request : Request) : Request :=
  { request with id := some (resolveTraceId draw request.headers) }

namespace TraceIdMiddleware

def use (draw : Draw) (request : Request) : Request :=
  let traceId := resolveTraceId draw request.headers
  { request with
    traceId := some traceId
    headers := Function.update request.headers traceHeader (some (.one traceId))
    responseHeader := some traceId }

end TraceIdMiddleware

/- Which of the two runs first. -/
inductive Order where
  | logger
  | middleware
  deriving DecidableEq

/-- A request on its way to the controller. -/
def receive (order : Order) (logDraw draw : Draw) (headers : Headers) : Request :=
  match order with
  | .logger => TraceIdMiddleware.use draw (genReqId logDraw { headers })
  | .middleware => genReqId logDraw (TraceIdMiddleware.use draw { headers })

/-- An id that may stand in a log line. -/
structure Clean (id : String) : Prop where
  nonempty : id ≠ ""
  short : id.length ≤ maxLength
  safe : ∀ c ∈ id.toList, isSafe c = true

variable {id s : String} {headers : Headers} {draw : Draw}

theorem safe_range {c : Char} (h : isSafe c = true) : 45 ≤ c.toNat ∧ c.toNat ≤ 122 := by
  simp only [isSafe, Bool.or_eq_true, Char.isAlphanum, Char.isAlpha, Char.isUpper, Char.isLower,
    Char.isDigit, Bool.and_eq_true, decide_eq_true_eq, UInt32.le_iff_toNat_le, ge_iff_le,
    List.contains_eq_mem, List.mem_cons, List.not_mem_nil, or_false] at h
  change (((65 ≤ c.toNat ∧ c.toNat ≤ 90) ∨ (97 ≤ c.toNat ∧ c.toNat ≤ 122)) ∨
    (48 ≤ c.toNat ∧ c.toNat ≤ 57)) ∨ _ at h
  rcases h with ((h | h) | h) | rfl | rfl | rfl | rfl
  · omega
  · omega
  · omega
  · decide
  · decide
  · decide
  · decide

theorem safe_not_space {c : Char} (h : isSafe c = true) : isSpace c = false := by
  have range := safe_range h
  simp only [isSpace, List.contains_eq_mem, List.mem_cons, List.not_mem_nil, or_false]
  simp only [Bool.or_eq_false_iff, Bool.and_eq_false_iff, decide_eq_false_iff_not]
  omega

theorem codeUnits_safe (h : ∀ c ∈ s.toList, isSafe c = true) : codeUnits s = s.length := by
  have ones : s.toList.map (fun c => if c.toNat < 0x10000 then 1 else 2) =
      s.toList.map fun _ => 1 := by
    refine List.map_congr_left fun c mem => ?_
    have range := safe_range (h c mem)
    rw [if_pos (by omega)]
  rw [codeUnits, ones, List.map_const', List.sum_replicate_nat, Nat.mul_one, String.length_toList]

theorem usable_iff : usable s = true ↔ Clean s := by
  simp only [usable, Bool.and_eq_true, decide_eq_true_eq, List.all_eq_true]
  constructor
  · intro ⟨⟨nonempty, short⟩, safe⟩
    exact ⟨nonempty, codeUnits_safe safe ▸ short, safe⟩
  · intro clean
    exact ⟨⟨clean.nonempty, (codeUnits_safe clean.safe).symm ▸ clean.short⟩, clean.safe⟩

theorem trim_clean (h : Clean s) : trim s = s := by
  have stays : ∀ l : List Char, (∀ c ∈ l, isSafe c = true) → l.dropWhile isSpace = l := by
    intro l safe
    cases l with
    | nil => rfl
    | cons c l => exact List.dropWhile_cons_of_neg (by simp [safe_not_space (safe c (by simp))])
  unfold trim
  rw [stays _ h.safe, stays _ (fun c mem => h.safe c (List.mem_reverse.mp mem)),
    List.reverse_reverse, String.ofList_toList]

theorem stamped_lt (draw : Draw) (i : Fin 16) : stamped draw i < 256 := by
  have byte := (draw i).isLt
  unfold stamped
  split
  · omega
  · split <;> omega

theorem hex_safe (draw : Draw) (is : List (Fin 16)) : ∀ c ∈ hex draw is, isSafe c = true := by
  have digits : ∀ n < 16, isSafe (Nat.digitChar n) = true := by decide
  intro c mem
  obtain ⟨i, -, here⟩ := List.mem_flatMap.mp mem
  have byte := stamped_lt draw i
  rcases List.mem_cons.mp here with rfl | last
  · exact digits _ (by omega)
  · rw [List.mem_singleton.mp last]
    exact digits _ (by omega)

theorem hex_length (draw : Draw) (is : List (Fin 16)) : (hex draw is).length = 2 * is.length := by
  induction is with
  | nil => rfl
  | cons i is ih =>
    rw [hex, List.flatMap_cons, List.length_append, ← hex, ih, List.length_cons]
    simp only [List.length_cons, List.length_nil]
    omega

theorem randomUUID_length (draw : Draw) : (randomUUID draw).length = 36 := by
  rw [randomUUID, String.length_ofList]
  simp only [List.length_append, List.length_cons, List.length_nil, hex_length]

theorem randomUUID_clean (draw : Draw) : Clean (randomUUID draw) := by
  have length := randomUUID_length draw
  constructor
  · intro empty
    rw [empty] at length
    cases length
  · rw [length]
    decide
  · intro c mem
    rw [randomUUID, String.toList_ofList] at mem
    simp only [List.mem_append, List.mem_cons] at mem
    rcases mem with (((h | rfl | h) | rfl | h) | rfl | h) | rfl | h
    all_goals first | exact hex_safe draw _ c h | decide

theorem resolve_clean (draw : Draw) (headers : Headers) : Clean (resolveTraceId draw headers) := by
  unfold resolveTraceId
  cases found : (candidate headers).filter usable with
  | none => exact randomUUID_clean draw
  | some id => exact usable_iff.mp (Option.filter_eq_some_iff.mp found).2

theorem pick_clean (h : Clean id) : pick (some (.one id)) = some id := by
  simp [pick, trim_clean h, h.nonempty]

/-- A clean id in the primary header is kept. -/
theorem resolve_written (h : Clean id) (draw : Draw) (headers : Headers) :
    resolveTraceId draw (Function.update headers traceHeader (some (.one id))) = id := by
  have first : candidate (Function.update headers traceHeader (some (.one id))) = some id := by
    rw [candidate, Function.update_self, pick_clean h, Option.some_or]
  rw [resolveTraceId, first, Option.filter_some_pos (usable_iff.mpr h), Option.getD_some]

/-- Two resolutions of one set of headers. -/
theorem resolve_agree (first second : Draw) (headers : Headers) :
    resolveTraceId first headers = resolveTraceId second headers ↔
      (candidate headers).any usable = true ∨ randomUUID first = randomUUID second := by
  unfold resolveTraceId
  cases found : candidate headers with
  | none => simp
  | some id =>
    cases ok : usable id with
    | true => simp [Option.filter_some_pos ok, ok]
    | false =>
      have dropped : (some id).filter usable = none := Option.filter_some_neg (by simp [ok])
      simp [dropped, ok]

variable {order : Order} {logDraw : Draw}

/-- What the request, its response and its log lines are given. -/
theorem receive_ids (order : Order) (logDraw draw : Draw) (headers : Headers) :
    ∃ id traceId, (receive order logDraw draw headers).id = some id ∧
      (receive order logDraw draw headers).traceId = some traceId ∧
      (receive order logDraw draw headers).responseHeader = some traceId ∧
      Clean id ∧ Clean traceId ∧
      (id = traceId ↔ order = .middleware ∨ (candidate headers).any usable = true ∨
        randomUUID logDraw = randomUUID draw) := by
  cases order with
  | logger =>
    refine ⟨_, _, rfl, rfl, rfl, resolve_clean .., resolve_clean .., ?_⟩
    exact (resolve_agree logDraw draw headers).trans (by simp)
  | middleware =>
    refine ⟨_, _, rfl, rfl, rfl, resolve_clean .., resolve_clean .., ?_⟩
    exact iff_of_true (resolve_written (resolve_clean draw headers) logDraw headers) (.inl rfl)

end Overbook.Trace
