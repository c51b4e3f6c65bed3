import Overbook.Idempotency.Provenance

/-! What a request was answered, and why. A replayed response was booked under the same key by a
request with the same fingerprint, as long as no claim finds the row of its key gone. -/
namespace Overbook.Idempotency

open Async Prog

variable {B R : Type}

abbrev Past (B R : Type) := List (Event (Effect.Answer (B := B) (R := R)) Err)

/-- What a claim has come to, after its past. -/
inductive Claims (key fingerprint : String) (past : Past B R) : Except Err (Claim R) → Prop where
  | won (row : IdempotencyKey R) : ⟨.insertKey key row, .ok true⟩ ∈ past → Claims key fingerprint past (.ok .proceed)
  | gone : ⟨.findKey key, .ok none⟩ ∈ past → Claims key fingerprint past (.ok .proceed)
  | found (row : IdempotencyKey R) : ⟨.findKey key, .ok (some row)⟩ ∈ past →
      Claims key fingerprint past (onExisting fingerprint (some row))
  | failed (e : Effect B R) (x : Err) : ⟨e, .error x⟩ ∈ past → (∀ request, e ≠ .handle request) →
      Claims key fingerprint past (.error x)

/-- Why a request is answered like this. -/
inductive Cause (requestFingerprint : String → String → B → String) (request : Request B)
    (past : Past B R) : Except Err (Reply R) → Prop where
  | handled (r : Except Err (Nat × R)) : ⟨.handle request, r⟩ ∈ past →
      Cause requestFingerprint request past (r.map handled)
  | replayed (key : String) (status : Nat) (body : Option R) : request.key = some key →
      Claims key (request.fingerprint requestFingerprint) past (.ok (.replay status body)) →
      Cause requestFingerprint request past (.ok ⟨status, body, true⟩)
  | refused (key : String) (x : Err) : request.key = some key →
      Claims key (request.fingerprint requestFingerprint) past (.error x) →
      Cause requestFingerprint request past (.error x)

def Unread (key : String) (past : Past B R) : Prop := ∀ x ∈ past, x.1 ≠ .findKey key

def Follows (requestFingerprint : String → String → B → String) (request : Request B)
    (past : Past B R) : Effect B R → Prop
  | .answer reply => Cause requestFingerprint request past reply
  | .handle request' => request' = request ∧ ∀ key, request.key = some key →
      Claims key (request.fingerprint requestFingerprint) past (.ok .proceed)
  | .insertKey key _ => request.key = some key ∧ Unread key past
  | .findKey key => request.key = some key ∧ Unread key past
  | _ => True

def Tidies : Effect B R → Prop
  | .updateKey .. => True
  | .deleteKey _ => True
  | _ => False

def Replied (past : Past B R) : Prop := ∃ reply r, ⟨.answer reply, r⟩ ∈ past

variable {requestFingerprint : String → String → B → String} {request : Request B}
  {past : Past B R} {key fingerprint : String}

theorem last_event (past : Past B R) (e : Effect B R) (r : Except Err e.Answer) :
    ⟨e, r⟩ ∈ past ++ [(⟨e, r⟩ : Event Effect.Answer Err)] :=
  List.mem_append_right _ (List.mem_singleton_self _)

theorem claim_follows {endpoint : String} (own : request.key = some key) :
    (claim (R := R) key endpoint (request.fingerprint requestFingerprint)).Heeds (fun _ => True)
      (Follows requestFingerprint request)
      (fun past r => Claims key (request.fingerprint requestFingerprint) past r) [] := by
  apply heeds_bind
  refine heeds_await (e := Effect.dateNow) trivial fun r _ => ?_
  cases r with
  | error x => exact .failed _ x (last_event ..) nofun
  | ok now =>
    apply heeds_bind
    refine heeds_await (e := Effect.insertKey _ _) ⟨own, by simp [Unread]⟩ fun r _ => ?_
    cases r with
    | error x => exact .failed _ x (last_event ..) nofun
    | ok won =>
      cases won with
      | true => exact .won _ (last_event ..)
      | false =>
        apply heeds_bind
        refine heeds_await (e := Effect.findKey _) ⟨own, by simp [Unread]⟩ fun r _ => ?_
        cases r with
        | error x => exact .failed _ x (last_event ..) nofun
        | ok row =>
          refine heeds_ofExcept ?_
          cases row with
          | none => exact .gone (last_event ..)
          | some row => exact .found row (last_event ..)

theorem replied_more (replied : Replied past) (x : Event Effect.Answer Err) : Replied (past ++ [x]) := by
  obtain ⟨reply, r, mem⟩ := replied
  exact ⟨reply, r, List.mem_append_left _ mem⟩

theorem answer_follows {reply : Except Err (Reply R)} {after : Handler B R Unit}
    (cause : Cause requestFingerprint request past reply) (only : after.Only Tidies) :
    (answer reply >>= fun _ => after).Heeds (fun _ => True) (Follows requestFingerprint request)
      (fun past _ => Replied past) past := by
  apply heeds_bind
  refine heeds_await (e := Effect.answer reply) cause fun u _ => ?_
  have replied : Replied (past ++ [⟨.answer reply, u⟩]) := ⟨_, _, last_event ..⟩
  cases u with
  | error x => exact replied
  | ok u =>
    refine heeds_only only (fun past e replied tidies => ⟨?_, fun r => replied_more replied _⟩) replied
    cases e <;> trivial

theorem guarded_follows (may : Follows requestFingerprint request past (.handle request)) :
    (guarded key request).Heeds (fun _ => True) (Follows requestFingerprint request)
      (fun past _ => Replied past) past := by
  apply heeds_bind
  apply heeds_outcome
  refine heeds_await (e := Effect.handle request) may fun r _ => ?_
  have cause : Cause requestFingerprint request (past ++ [⟨.handle request, r⟩]) (r.map handled) :=
    .handled r (last_event ..)
  cases r with
  | ok result => exact answer_follows cause (only_handle ((only_await _).mpr trivial) fun _ => trivial)
  | error x => exact answer_follows cause (only_handle ((only_await _).mpr trivial) fun _ => trivial)

theorem intercept_follows (request : Request B) :
    (intercept (R := R) requestFingerprint request).Heeds (fun _ => True)
      (Follows requestFingerprint request) (fun past _ => Replied past) [] := by
  have alone : ∀ {reply : Except Err (Reply R)} {past : Past B R},
      Cause requestFingerprint request past reply →
      (answer reply).Heeds (fun _ => True) (Follows requestFingerprint request)
        (fun past _ => Replied past) past := by
    intro reply past cause
    exact heeds_await (e := Effect.answer reply) cause fun u _ => ⟨_, _, last_event ..⟩
  cases key : request.key with
  | none =>
    simp only [intercept, key]
    apply heeds_bind
    apply heeds_outcome
    refine heeds_await (e := Effect.handle request) ⟨rfl, by simp [key]⟩ fun r _ => ?_
    exact alone (.handled r (last_event ..))
  | some key' =>
    simp only [intercept, key]
    apply heeds_bind
    apply heeds_outcome
    refine (claim_follows key).mono fun past r claims => ?_
    cases r with
    | error error => exact alone (.refused key' error key claims)
    | ok won =>
      cases won with
      | replay status body => exact alone (.replayed key' status body key claims)
      | proceed =>
        refine guarded_follows ⟨rfl, fun key'' same => ?_⟩
        cases key.symm.trans same
        exact claims

abbrev RequestEntry (B R : Type) := Entry (KeyStore B R) (Effect.Answer (B := B) (R := R)) Err

variable {Ok : Requests B R → Act (Request B) (Choice R) Ext → Prop} {p q : Requests B R}
  {a : Act (Request B) (Choice R) Ext} {entries : List (RequestEntry B R)} {t : Tid} {K : String}

theorem settle_keys (t : Tid) (request : Request B) (s : KeyStore B R) (b : Handler B R Unit) :
    ((interceptor R requestFingerprint).settle t request s b).1 = s := by cases b <;> rfl

/-- How the store changes with the history. -/
inductive Unfolds (p q : Requests B R) : List (RequestEntry B R) → Prop where
  | answer (x : RequestEntry B R) : x.before = p.shared → x.after = q.shared →
      Moves x.task p.shared x.effect q.shared → Unfolds p q [x]
  | quiet : q.shared = p.shared → Unfolds p q []
  | swept (now : Time) : q.shared = p.shared.sweep now → Unfolds p q []

theorem step_unfolds (st : (interceptor R requestFingerprint).step p a = some q) :
    Unfolds p q ((interceptor R requestFingerprint).logged p a) := by
  cases Machine.steps_of_step st with
  | @start t j => exact .quiet (settle_keys t j p.shared _)
  | @step t c j e k s r live answered =>
    rw [Machine.logged_step live answered]
    have after : (Machine.put p t ((interceptor R requestFingerprint).settle t j s (k r))).shared =
        s := settle_keys t j s _
    refine .answer ⟨t, e, r, p.shared, s⟩ rfl after.symm ?_
    rw [after]
    exact exec_moves answered
  | kill => exact .quiet rfl
  | @env x s happened =>
    cases x with
    | sweep now => exact .swept now (Option.some.inj happened).symm

theorem reach_grows (run : (interceptor R requestFingerprint).Reach Ok p q) :
    p.shared.booked <+: q.shared.booked ∧ p.shared.answers <+: q.shared.answers := by
  induction run with
  | refl => exact ⟨List.prefix_rfl, List.prefix_rfl⟩
  | @step q q' a _ _ st ih =>
    have one : q.shared.booked <+: q'.shared.booked ∧ q.shared.answers <+: q'.shared.answers := by
      have unfolds := step_unfolds st
      generalize (interceptor R requestFingerprint).logged q a = new at unfolds
      cases unfolds with
      | answer x _ _ moves => exact ⟨booked_grows moves, answers_grow moves⟩
      | quiet same => exact ⟨⟨[], by simp [same]⟩, ⟨[], by simp [same]⟩⟩
      | swept now same =>
        exact ⟨⟨[], by simp [same, KeyStore.sweep]⟩, ⟨[], by simp [same, KeyStore.sweep]⟩⟩
    exact ⟨ih.1.trans one.1, ih.2.trans one.2⟩

theorem answer_entry (run : (interceptor R requestFingerprint).History Ok noKeys entries p)
    {reply : Except Err (Reply R)} (mem : (t, reply) ∈ p.shared.answers) :
    ∃ x ∈ entries, x.task = t ∧ x.effect = .answer reply := by
  induction run with
  | refl => cases mem
  | @step entries q q' a _ _ st ih =>
    have old : (t, reply) ∈ q.shared.answers → ∃ x ∈ entries ++
        (interceptor R requestFingerprint).logged q a, x.task = t ∧ x.effect = .answer reply := by
      intro before
      obtain ⟨x, hx, same⟩ := ih before
      exact ⟨x, List.mem_append_left _ hx, same⟩
    have unfolds := step_unfolds st
    generalize (interceptor R requestFingerprint).logged q a = new at unfolds old
    cases unfolds with
    | quiet same => exact old (same ▸ mem)
    | swept now same => rw [same] at mem; exact old mem
    | answer x before after moves =>
      obtain ⟨task, e, r, s, s'⟩ := x
      dsimp only at before after moves
      have here : ∀ {e : Effect B R}, Moves task q.shared e q'.shared →
          (t, reply) ∈ q.shared.answers ∨ (task = t ∧ e = .answer reply) := by
        intro e moves
        generalize q'.shared = s' at moves mem
        cases moves with
        | same => exact .inl mem
        | booked => exact .inl mem
        | updated => exact .inl mem
        | deleted => exact .inl mem
        | inserted key row =>
          unfold KeyStore.insertKey at mem
          split at mem <;> exact .inl mem
        | answered reply' =>
          rcases List.mem_append.mp mem with before | now
          · exact .inl before
          · cases List.mem_singleton.mp now
            exact .inr ⟨rfl, rfl⟩
      rcases here moves with before | ⟨rfl, rfl⟩
      · exact old before
      · exact ⟨_, List.mem_append_right _ (List.mem_singleton_self _), rfl, rfl⟩

/-- Every answer has a cause in the past of its request. -/
theorem answer_cause (run : (interceptor R requestFingerprint).History Ok noKeys entries p)
    {reply : Except Err (Reply R)} (mem : (t, reply) ∈ p.shared.answers)
    (job : (p.slot t).job = some request) :
    ∃ first last, entries = first ++ last ∧
      Cause requestFingerprint request (eventsOf t first) reply := by
  obtain ⟨x, hx, rfl, answers⟩ := answer_entry run mem
  obtain ⟨first, last, rfl⟩ := List.append_of_mem hx
  obtain ⟨r, j, k, c, past, -, live, -, -, rest⟩ := run.split
  have kept := (Machine.reach_keep rest x.task).1 j (by rw [live]; rfl)
  cases job.symm.trans kept
  have asks := past.asks (fun _ _ _ _ _ _ _ => trivial) (intercept_follows request) live
  rw [answers] at asks
  exact ⟨first, _, rfl, asks⟩

theorem onExisting_replays {row : IdempotencyKey R} {status : Nat} {body : Option R}
    (h : onExisting fingerprint (some row) = .ok (.replay status body)) :
    row.requestHash = fingerprint ∧ row.status = .completed ∧ row.responseStatus = some status ∧
      row.responseBody = body := by
  obtain ⟨endpoint, hash, state, code, stored, expires⟩ := row
  by_cases other : hash ≠ fingerprint
  · simp [onExisting, other] at h
  · cases state <;> cases code <;> simp_all [onExisting]

theorem claims_replay {status : Nat} {body : Option R}
    (h : Claims (B := B) key fingerprint past (.ok (.replay status body))) :
    ∃ row : IdempotencyKey R, ⟨.findKey key, .ok (some row)⟩ ∈ past ∧
      row.requestHash = fingerprint ∧ row.status = .completed ∧
      row.responseStatus = some status ∧ row.responseBody = body := by
  generalize same : (Except.ok (Claim.replay status body) : Except Err (Claim R)) = r at h
  cases h with
  | won => cases same
  | gone => cases same
  | found row mem => exact ⟨row, mem, onExisting_replays same.symm⟩
  | failed => cases same

theorem noKeys_sound (allowed : Choice R → Prop) :
    Logic.Sound (provenance (R := R) K requestFingerprint allowed).logic
      (fun t _ _ s => True ∧ ((∀ c, allowed c → c.smooth) → Filled K t s))
      (noKeys : Requests B R) :=
  Logic.initial_sound ⟨.inl rfl, fun _ hk => nomatch hk⟩ fun _ =>
    ⟨List.not_mem_nil, nofun, List.not_mem_nil⟩

/-- A replayed response was booked with the key and the fingerprint of the request that gets it. -/
theorem replay_belongs (requestFingerprint : String → String → B → String) (K : String)
    (p : Requests B R) (run : (interceptor R requestFingerprint).Reach (Steady K) noKeys p) :
    ∀ t reply request, (t, .ok reply) ∈ p.shared.answers → reply.replayed = true →
      (p.slot t).job = some request → request.key = some K →
      ∃ b ∈ p.shared.booked, b.request.key = some K ∧
        b.request.fingerprint requestFingerprint = request.fingerprint requestFingerprint ∧
        b.status = reply.status ∧ some b.body = reply.body := by
  intro t reply request mem replayed job key
  have answered : (interceptor R requestFingerprint).Reach (Answered K fun _ => True) noKeys p :=
    run.mono fun q a ok => ⟨ok, fun _ _ _ => trivial⟩
  obtain ⟨entries, history⟩ := Machine.History.of_reach answered
  obtain ⟨first, last, rfl, cause⟩ := answer_cause history mem job
  generalize given : (Except.ok reply : Except Err (Reply R)) = r at cause
  cases cause with
  | handled r =>
    cases r with
    | error x => cases given
    | ok result =>
      cases given
      cases replayed
  | refused => cases given
  | replayed key' status body key' claims =>
    cases given
    cases key.symm.trans key'
    obtain ⟨row, found, hash, completed, code, stored⟩ := claims_replay claims
    obtain ⟨x, hx, event⟩ := List.mem_map.mp found
    obtain ⟨early, late, rfl⟩ := List.append_of_mem (List.mem_filter.mp hx).1
    rw [List.append_assoc, List.cons_append] at history
    obtain ⟨r, j, k, c, past, here, live, -, he, rest⟩ := history.split
    have sound := Logic.reach_sound (provenance_verified K fun _ => True) (noKeys_sound _) past.reach
    obtain ⟨task, e, answer, before, after⟩ := x
    cases event
    dsimp only at here he
    obtain ⟨claimed, there, rfl⟩ := Option.map_eq_some_iff.mp (found_ok he).symm
    obtain ⟨b, booked, backs⟩ := sound.inv.2 claimed (here ▸ there) completed
    refine ⟨b, (reach_grows rest).1.subset booked, backs.key, backs.fingerprint.trans hash, ?_, ?_⟩
    · exact Option.some.inj (backs.status.symm.trans code)
    · exact backs.body.symm.trans stored

theorem replay_belongs_retried : ∃ p : Requests Unit Unit,
    (2, .ok ⟨201, some (), true⟩) ∈ p.shared.answers ∧
      ∃ b ∈ p.shared.booked, b.request.key = some "c1" ∧ b.status = 201 := by
  have replay : (((interceptor Unit methodAndUrl).runChecked (steadyCheck "c1") noKeys
      retried).map fun p => ((p.shared.answers.getLast?.map fun a => (a.1, a.2.toOption)),
        (p.slot 2).job.map (·.key))) =
        some (some (2, some ⟨201, some (), true⟩), some (some "c1")) := by decide +kernel
  obtain ⟨p, hp, seen⟩ := Option.map_eq_some_iff.mp replay
  obtain ⟨last, job⟩ := Prod.mk.inj seen
  obtain ⟨⟨t, r⟩, ends, given⟩ := Option.map_eq_some_iff.mp last
  obtain ⟨request, job, key⟩ := Option.map_eq_some_iff.mp job
  have mem := List.mem_of_getLast? ends
  have run := Machine.Reach.of_checked hp fun a _ q => steady_of_check (p := q) (a := a)
  cases r with
  | error x => cases given
  | ok reply =>
    cases given
    obtain ⟨b, booked, own, -, status, -⟩ :=
      replay_belongs methodAndUrl "c1" p run 2 _ request mem rfl job key
    exact ⟨p, mem, b, booked, own, status⟩

def Young (K : String) (p : Requests B R) : Act (Request B) (Choice R) Ext → Prop
  | .env (.sweep now) => Unswept K p.shared now
  | _ => True

/- The same key, sent to another event. -/
def otherClick : Request Unit := { click with originalUrl := "/v1/events/f/bookings" }

/- The second send of the click reads after the release of the first one and books; its response
goes into the row that the other click has inserted meanwhile. -/
def filledByOther : List (Act (Request Unit) (Choice Unit) Ext) :=
  [.start 1 click, .step 1 (.time 0), .step 1 .ok,
    .start 2 click, .step 2 (.time 1), .step 2 .ok,
    .step 1 (.threw (.conflict "Too much contention on this event, please retry")),
    .step 1 .ok, .step 1 .ok,
    .step 2 .ok,
    .start 3 otherClick, .step 3 (.time 2), .step 3 .ok,
    .step 2 (.booked 201 ()), .step 2 .ok, .step 2 .ok,
    .start 4 otherClick, .step 4 (.time 3), .step 4 .ok, .step 4 .ok, .step 4 .ok]

theorem replay_of_other : ¬ ∀ p : Requests Unit Unit,
    (interceptor Unit methodAndUrl).Reach (Young "c1") noKeys p →
      ∀ t reply request, (t, .ok reply) ∈ p.shared.answers → reply.replayed = true →
        (p.slot t).job = some request → request.key = some "c1" →
        ∃ b ∈ p.shared.booked, b.request.key = some "c1" ∧
          b.request.fingerprint methodAndUrl = request.fingerprint methodAndUrl ∧
          b.status = reply.status ∧ some b.body = reply.body := by
  intro claim
  have replay : (((interceptor Unit methodAndUrl).run noKeys filledByOther).map fun p =>
      ((p.shared.answers.getLast?.map fun a => (a.1, a.2.toOption)),
        (p.slot 4).job.map fun r => (r.key, r.fingerprint methodAndUrl),
        p.shared.booked.map (·.request.fingerprint methodAndUrl))) =
      some (some (4, some ⟨201, some (), true⟩),
        some (some "c1", "POST /v1/events/f/bookings"), ["POST /v1/events/e/bookings"]) := by
    rfl
  obtain ⟨p, hp, seen⟩ := Option.map_eq_some_iff.mp replay
  obtain ⟨last, seen⟩ := Prod.mk.inj seen
  obtain ⟨job, prints⟩ := Prod.mk.inj seen
  obtain ⟨⟨t, r⟩, ends, given⟩ := Option.map_eq_some_iff.mp last
  obtain ⟨request, job, own⟩ := Option.map_eq_some_iff.mp job
  obtain ⟨key, print⟩ := Prod.mk.inj own
  have mem := List.mem_of_getLast? ends
  have run : (interceptor Unit methodAndUrl).Reach (Young "c1") noKeys p := by
    refine .of_run hp fun a ha q => ?_
    cases a with
    | env x => simp [filledByOther] at ha
    | _ => trivial
  cases r with
  | error x => cases given
  | ok reply =>
    cases given
    obtain ⟨b, booked, -, same, -⟩ := claim p run 4 _ request mem rfl job key
    have print' : b.request.fingerprint methodAndUrl ∈ ["POST /v1/events/e/bookings"] :=
      prints ▸ List.mem_map_of_mem booked
    rw [same, print] at print'
    exact absurd print' (by decide)

end Overbook.Idempotency
