import Overbook.Idempotency.Replay

/-! A retry after the answer. The answer leaves before the response is stored or the key released,
so a retry may still find the row in progress; it does not where it reads after that. -/
namespace Overbook.Idempotency

open Async Prog OneUse

variable {B R : Type}

/-- Nothing fails, nothing dies, and no sweep removes the row of `K`. -/
def Fluent (K : String) (p : Requests B R) : Act (Request B) (Choice R) Ext → Prop
  | .start .. => True
  | .step _ c => c.smooth
  | .kill _ => False
  | .env (.sweep now) => Unswept K p.shared now

/- Nobody but `b` has anything left to do under `K`. -/
def Alone (K : String) (b : Tid) (p : Requests B R) : Prop :=
  ∀ t request, t ≠ b → (p.slot t).job = some request → request.key = some K →
    (p.slot t).isLive = false

/-- The actions of a run in which request `b` looks the row up after all others are through with
`K`, and no other claim looks up a row that is gone. -/
def Unhurried (K : String) (b : Tid) (p : Requests B R) (a : Act (Request B) (Choice R) Ext) :
    Prop :=
  Fluent K p a ∧ ∀ t c j k, a = .step t c → p.slot t = .live j (.findKey K) k →
    if t = b then Alone K b p else (p.shared.keys K).isSome = true

variable {requestFingerprint : String → String → B → String} {K : String} {b t : Tid}
  {p q : Requests B R} {entries before later : List (RequestEntry B R)} {request : Request B}
  {Ok : Requests B R → Act (Request B) (Choice R) Ext → Prop}

theorem steady_until
    (run : (interceptor R requestFingerprint).History (Unhurried K b) noKeys entries p)
    (unread : Unread K (eventsOf b entries)) :
    (interceptor R requestFingerprint).Reach (Answered K Choice.smooth) noKeys p := by
  induction run with
  | refl => exact .refl
  | @step entries q q' a _ ok st ih =>
    rw [eventsOf_append] at unread
    refine .step (ih fun x hx => unread x (List.mem_append_left _ hx)) ⟨?_, ?_⟩ st
    · cases a with
      | start => trivial
      | kill => trivial
      | env x => exact ok.1
      | step t c =>
        rintro j e k live rfl
        have looks := ok.2 t c j k rfl live
        by_cases mine : t = b
        · subst mine
          obtain ⟨s, r, answered⟩ : ∃ s r, exec t q.shared (.findKey K) c = some (s, r) := by
            cases Machine.steps_of_step st with
            | step live' answered =>
              cases live.symm.trans live'
              exact ⟨_, _, answered⟩
          rw [Machine.logged_step live answered] at unread
          refine absurd rfl (unread ⟨.findKey K, r⟩ (List.mem_append_right _ ?_))
          simp [eventsOf, entriesOf]
        · rwa [if_neg mine] at looks
    · rintro t c rfl
      exact ok.1

theorem never_gone (run : (interceptor R requestFingerprint).Reach Ok noKeys p)
    (alive : ∀ q t, ¬ Ok q (.kill t)) (t : Tid) (j : Request B) : p.slot t ≠ .gone j := by
  induction run with
  | refl => exact nofun
  | @step q q' a _ ok st ih =>
    cases Machine.steps_of_step st with
    | @start t' j' =>
      by_cases same : t = t'
      · subst same
        rw [Machine.put_self]
        cases (interceptor R requestFingerprint).code j' <;> exact nofun
      · rw [Machine.put_of_ne same]
        exact ih
    | @step t' c j' e k s r =>
      by_cases same : t = t'
      · subst same
        rw [Machine.put_self]
        cases k r <;> exact nofun
      · rw [Machine.put_of_ne same]
        exact ih
    | kill => exact absurd ok (alive _ _)
    | env => exact ih

theorem row_owner (run : (interceptor R requestFingerprint).History Ok noKeys entries p)
    {row : Claimed R} (hk : p.shared.keys K = some row) :
    ∃ j, (p.slot row.owner).job = some j ∧ j.key = some K := by
  induction run generalizing row with
  | refl => cases hk
  | @step entries q q' a past ok st ih =>
    have old : ∀ {row' : Claimed R}, q.shared.keys K = some row' → row'.owner = row.owner →
        ∃ j, (q'.slot row.owner).job = some j ∧ j.key = some K := by
      intro row' was same
      obtain ⟨j, job, key⟩ := ih was
      exact ⟨j, (Machine.steps_keep (Machine.steps_of_step st) _).1 j (same ▸ job), key⟩
    cases Machine.steps_of_step st with
    | @start t j => exact old ((settle_keys t j q.shared _) ▸ hk) rfl
    | kill => exact old hk rfl
    | @env x s happened =>
      cases x with
      | sweep now =>
        cases Option.some.inj happened
        exact old (Option.filter_eq_some_iff.mp hk).1 rfl
    | @step t c j e k s r live answered =>
      have after : (Machine.put q t ((interceptor R requestFingerprint).settle t j s (k r))).shared =
          s := settle_keys t j s _
      rw [after] at hk
      rcases moves_row (exec_moves answered) hk with
        was | ⟨-, mine, row', rfl, -⟩ | ⟨_, _, was', rfl, was, rfl⟩
      · exact old was rfl
      · have asks := past.asks (fun _ _ _ _ _ _ _ => trivial) (intercept_follows j) live
        refine ⟨j, ?_, asks.1⟩
        rw [mine, Machine.put_self]
        exact Machine.settle_job ..
      · exact old was rfl

theorem Filled.stable {s s' : KeyStore B R} (h : Filled K t s)
    (right : (rightOn K s).Undisturbed t (rightOn K s')) (still : Unmoved K t s s') :
    Filled K t s' := by
  intro row hk own
  have held : (rightOn K s').holder = some t := by
    rw [rightOn, hk]
    exact congrArg some own
  obtain ⟨row', was, own'⟩ := Option.map_eq_some_iff.mp (right.holder.mp held)
  cases hk.symm.trans (still.row row' was own')
  exact h row was own

theorem ended_filled
    (run : (interceptor R requestFingerprint).Reach (Answered K Choice.smooth) noKeys p)
    {r : Except Err Unit} (ended : p.slot t = .ended request r) : Filled K t p.shared := by
  have last := Logic.answers_last (provenance_verified K Choice.smooth) (noKeys_sound _) run
    (fun t j r s s' h f => ⟨trivial, fun smooth => (h.2 smooth).stable f.1 f.2⟩)
    (fun _ _ _ _ _ h => h) (fun _ _ _ ended => nomatch ended) ended
  exact last.2 fun _ smooth => smooth

theorem row_done
    (run : (interceptor R requestFingerprint).History (Unhurried K b) noKeys entries p)
    (unread : Unread K (eventsOf b entries)) (alone : Alone K b p) {row : Claimed R}
    (hk : p.shared.keys K = some row) (other : row.owner ≠ b) : row.status = .completed := by
  obtain ⟨j, job, key⟩ := row_owner run hk
  cases slot : p.slot row.owner with
  | idle =>
    rw [slot] at job
    cases job
  | live j' e k =>
    have through := alone row.owner j other job key
    rw [slot] at through
    cases through
  | ended j' r => exact ended_filled (steady_until run unread) slot row hk rfl
  | gone j' => exact absurd slot (never_gone run.reach (fun _ _ fluent => fluent.1) _ _)

/-- What a lookup of `b` finds. -/
structure Finds (requestFingerprint : String → String → B → String) (K : String) (b : Tid)
    (s : KeyStore B R) : Prop where
  once : (rightOn K s).Once
  row : ∀ row, s.keys K = some row → row.owner ≠ b ∧ row.status = .completed ∧
    ∃ x ∈ s.booked, Backs requestFingerprint K row x

theorem booked_row {s : KeyStore B R} (once : (rightOn K s).Once) {x : Booked B R}
    (mem : x ∈ s.booked) (key : x.request.key = some K) :
    (s.keys K).isSome = true ∧ ∀ y ∈ s.booked, y.request.key = some K → y = x := by
  have mine : ∀ {y}, y ∈ s.booked → y.request.key = some K →
      y ∈ s.booked.filter fun b => b.request.key == some K := fun mem key =>
    List.mem_filter.mpr ⟨mem, beq_iff_eq.mpr key⟩
  constructor
  · have used : x.owner ∈ bookedFor K s := List.mem_map_of_mem (mine mem key)
    rcases once with none | ⟨t, _, held⟩
    · rw [show bookedFor K s = [] from none] at used
      cases used
    · obtain ⟨row, hk, _⟩ := Option.map_eq_some_iff.mp held
      rw [hk]
      rfl
  · intro y mem' key'
    have single : (s.booked.filter fun b => b.request.key == some K).length ≤ 1 := by
      have one := once.length_le_one
      rwa [rightOn, bookedFor, List.length_map] at one
    have x' := mine mem key
    have y' := mine mem' key'
    cases listed : s.booked.filter fun b => b.request.key == some K with
    | nil =>
      rw [listed] at x'
      cases x'
    | cons z others =>
      rw [listed] at x' y' single
      cases others with
      | nil => exact (List.mem_singleton.mp y').trans (List.mem_singleton.mp x').symm
      | cons => simp at single

theorem mine_later
    (past : (interceptor R requestFingerprint).History (Unhurried K b) noKeys before p)
    (idle : p.slot b = .idle) (later : List (RequestEntry B R)) :
    eventsOf b (before ++ later) = eventsOf b later := by
  have none := past.tracks b
  rw [idle] at none
  rw [eventsOf_append, show eventsOf b before = [] from none, List.nil_append]

/-- An answer that the retry was given, and the pool that it was given in. -/
structure Given (requestFingerprint : String → String → B → String) (K : String) (b : Tid)
    (p q : Requests B R) (later : List (RequestEntry B R)) (e : Effect B R)
    (o : Except Err e.Answer) where
  first : List (RequestEntry B R)
  pool : Requests B R
  job : Request B
  next : Except Err e.Answer → Handler B R Unit
  choice : Choice R
  after : KeyStore B R
  early : (interceptor R requestFingerprint).History (Unhurried K b) p first pool
  on : (interceptor R requestFingerprint).Reach (Unhurried K b) pool q
  live : pool.slot b = .live job e next
  ok : Unhurried K b pool (.step b choice)
  answered : exec b pool.shared e choice = some (after, o)
  asked : Follows requestFingerprint job (eventsOf b first) e
  since : ∀ y ∈ eventsOf b first, y ∈ eventsOf b later

theorem event_given
    (past : (interceptor R requestFingerprint).History (Unhurried K b) noKeys before p)
    (idle : p.slot b = .idle)
    (rest : (interceptor R requestFingerprint).History (Unhurried K b) p later q)
    {e : Effect B R} {o : Except Err e.Answer} (mem : ⟨e, o⟩ ∈ eventsOf b later) :
    Nonempty (Given requestFingerprint K b p q later e o) := by
  obtain ⟨x, hx, event⟩ := List.mem_map.mp mem
  obtain ⟨inside, task⟩ := List.mem_filter.mp hx
  obtain ⟨first, last, rfl⟩ := List.append_of_mem inside
  obtain ⟨r, j, k, c, early, here, live, ok, answered, on⟩ := rest.split
  obtain ⟨t, e', o', s, s'⟩ := x
  cases event
  cases beq_iff_eq.mp task
  dsimp only at here live answered
  subst here
  have asked := (past.trans early).asks (fun _ _ _ _ _ _ _ => trivial) (intercept_follows j) live
  rw [mine_later past idle] at asked
  refine ⟨first, r, j, k, c, s', early, on, live, ok, answered, asked, fun y hy => ?_⟩
  rw [eventsOf_append]
  exact List.mem_append_left _ hy

theorem given_sound
    (past : (interceptor R requestFingerprint).History (Unhurried K b) noKeys before p)
    (idle : p.slot b = .idle) {e : Effect B R} {o : Except Err e.Answer}
    (given : Given requestFingerprint K b p q later e o)
    (unread : Unread K (eventsOf b given.first)) :
    Logic.Sound (provenance (R := R) K requestFingerprint Choice.smooth).logic
      (fun t _ _ s => True ∧ ((∀ c, Choice.smooth (R := R) c → c.smooth) → Filled K t s))
      given.pool := by
  rw [← mine_later past idle] at unread
  have steady := steady_until (past.trans given.early) unread
  exact Logic.reach_sound (provenance_verified K Choice.smooth) (noKeys_sound _) steady

theorem looked_up
    (past : (interceptor R requestFingerprint).History (Unhurried K b) noKeys before p)
    (idle : p.slot b = .idle)
    (rest : (interceptor R requestFingerprint).History (Unhurried K b) p later q)
    {row : Option (IdempotencyKey R)} (mem : ⟨.findKey K, .ok row⟩ ∈ eventsOf b later) :
    ∃ r : Requests B R, (interceptor R requestFingerprint).Reach (Unhurried K b) p r ∧
      (interceptor R requestFingerprint).Reach (Unhurried K b) r q ∧
      row = (r.shared.keys K).map (·.toIdempotencyKey) ∧
      Finds requestFingerprint K b r.shared := by
  obtain ⟨given⟩ := event_given past idle rest mem
  have unread := given.asked.2
  have sound := given_sound past idle given unread
  refine ⟨given.pool, given.early.reach, given.on, found_ok given.answered, sound.inv.1, ?_⟩
  intro row hk
  have outside : Outside K b given.pool.shared := (sound.here given.live).2 rfl
  have other : row.owner ≠ b := by
    intro own
    refine outside.1 ?_
    rw [rightOn, hk]
    exact congrArg some own
  have alone := given.ok.2 b given.choice _ _ rfl given.live
  rw [if_pos rfl] at alone
  rw [← mine_later past idle] at unread
  have completed := row_done (past.trans given.early) unread alone hk other
  exact ⟨other, completed, sound.inv.2 row hk completed⟩

theorem proceeds_absent
    (past : (interceptor R requestFingerprint).History (Unhurried K b) noKeys before p)
    (idle : p.slot b = .idle)
    (rest : (interceptor R requestFingerprint).History (Unhurried K b) p later q)
    {fingerprint : String} (claims : Claims K fingerprint (eventsOf b later) (.ok .proceed)) :
    ∃ r : Requests B R, (interceptor R requestFingerprint).Reach (Unhurried K b) p r ∧
      (rightOn K r.shared).Once ∧ r.shared.keys K = none := by
  generalize proceeds : (Except.ok Claim.proceed : Except Err (Claim R)) = o at claims
  cases claims with
  | failed => cases proceeds
  | found row => exact absurd proceeds.symm (onExisting_stops fingerprint row)
  | won row mem =>
    obtain ⟨given⟩ := event_given past idle rest mem
    have sound := given_sound past idle given given.asked.2
    obtain ⟨-, free⟩ := inserted_ok given.answered
    exact ⟨given.pool, given.early.reach, sound.inv.1, by simpa using free.symm⟩
  | gone mem =>
    obtain ⟨r, early, -, none, finds⟩ := looked_up past idle rest mem
    exact ⟨r, early, finds.once, by simpa using none.symm⟩

theorem Claims.more {key fingerprint : String} {past past' : Past B R} {r : Except Err (Claim R)}
    (h : Claims key fingerprint past r) (sub : ∀ y ∈ past, y ∈ past') :
    Claims key fingerprint past' r := by
  cases h with
  | won row mem => exact .won row (sub _ mem)
  | gone mem => exact .gone (sub _ mem)
  | found row mem => exact .found row (sub _ mem)
  | failed e x mem other => exact .failed e x (sub _ mem) other

theorem Cause.more {past past' : Past B R} {reply : Except Err (Reply R)}
    (h : Cause requestFingerprint request past reply) (sub : ∀ y ∈ past, y ∈ past') :
    Cause requestFingerprint request past' reply := by
  cases h with
  | handled r mem => exact .handled r (sub _ mem)
  | replayed key status body own claims => exact .replayed key status body own (claims.more sub)
  | refused key x own claims => exact .refused key x own (claims.more sub)

theorem onExisting_filled {row : IdempotencyKey R} {fingerprint : String} {status : Nat}
    (completed : row.status = .completed) (code : row.responseStatus = some status) :
    onExisting fingerprint (some row) =
      if row.requestHash = fingerprint then .ok (.replay status row.responseBody)
      else .error otherBody := by
  obtain ⟨endpoint, hash, state, stored, body, expires⟩ := row
  dsimp only at completed code
  subst completed code
  by_cases same : hash = fingerprint <;> simp [onExisting, same]

/-- A retry is answered by its handler, or out of a row that another request has filled. -/
theorem retry_cause
    (past : (interceptor R requestFingerprint).History (Unhurried K b) noKeys before p)
    (idle : p.slot b = .idle)
    (rest : (interceptor R requestFingerprint).History (Unhurried K b) p later q)
    (job : (q.slot b).job = some request) (key : request.key = some K)
    {reply : Except Err (Reply R)} (sent : (b, reply) ∈ q.shared.answers) :
    (∃ o, ⟨.handle request, o⟩ ∈ eventsOf b later ∧ reply = o.map handled) ∨
    ∃ (r : Requests B R) (x : Booked B R),
      (interceptor R requestFingerprint).Reach (Unhurried K b) p r ∧
      (interceptor R requestFingerprint).Reach (Unhurried K b) r q ∧
      (rightOn K r.shared).Once ∧ x ∈ r.shared.booked ∧ x.request.key = some K ∧ x.owner ≠ b ∧
      reply = if x.request.fingerprint requestFingerprint = request.fingerprint requestFingerprint
        then .ok ⟨x.status, some x.body, true⟩ else .error otherBody := by
  obtain ⟨first, last, split, cause⟩ := answer_cause (past.trans rest) sent job
  have sub : ∀ y ∈ eventsOf b first, y ∈ eventsOf b later := by
    intro y hy
    rw [← mine_later past idle, split, eventsOf_append]
    exact List.mem_append_left _ hy
  have filled : ∀ row : IdempotencyKey R, ⟨.findKey K, .ok (some row)⟩ ∈ eventsOf b later →
      ∃ (r : Requests B R) (x : Booked B R),
        (interceptor R requestFingerprint).Reach (Unhurried K b) p r ∧
        (interceptor R requestFingerprint).Reach (Unhurried K b) r q ∧
        (rightOn K r.shared).Once ∧ x ∈ r.shared.booked ∧ x.request.key = some K ∧ x.owner ≠ b ∧
        onExisting (request.fingerprint requestFingerprint) (some row) =
          if x.request.fingerprint requestFingerprint = request.fingerprint requestFingerprint
          then .ok (.replay x.status (some x.body)) else .error otherBody := by
    intro row found
    obtain ⟨r, early, on, here, finds⟩ := looked_up past idle rest found
    obtain ⟨claimed, hk, rfl⟩ := Option.map_eq_some_iff.mp here.symm
    obtain ⟨other, completed, x, booked, backs⟩ := finds.row claimed hk
    refine ⟨r, x, early, on, finds.once, booked, backs.key, backs.owner ▸ other, ?_⟩
    rw [onExisting_filled completed backs.status, backs.fingerprint, backs.body]
  cases cause.more sub with
  | handled o here => exact .inl ⟨o, here, rfl⟩
  | replayed key' status body own claims =>
    cases key.symm.trans own
    generalize replays : (Except.ok (Claim.replay status body) : Except Err (Claim R)) = o at claims
    cases claims with
    | won => cases replays
    | gone => cases replays
    | failed => cases replays
    | found row found =>
      obtain ⟨r, x, early, on, once, booked, own, other, eq⟩ := filled row found
      rw [← replays] at eq
      refine .inr ⟨r, x, early, on, once, booked, own, other, ?_⟩
      split at eq
      · rename_i same
        cases eq
        rw [if_pos same]
      · cases eq
  | refused key' x own claims =>
    cases key.symm.trans own
    generalize refuses : (Except.error x : Except Err (Claim R)) = o at claims
    cases claims with
    | won => cases refuses
    | gone => cases refuses
    | failed e x' mem other =>
      obtain ⟨given⟩ := event_given past idle rest mem
      obtain ⟨request', handles⟩ := smooth_ok given.answered given.ok.1
      exact absurd handles (other request')
    | found row found =>
      obtain ⟨r, x, early, on, once, booked, own, other, eq⟩ := filled row found
      rw [← refuses] at eq
      refine .inr ⟨r, x, early, on, once, booked, own, other, ?_⟩
      split at eq
      · cases eq
      · rename_i differs
        cases eq
        rw [if_neg differs]

theorem entry_grows (run : (interceptor R requestFingerprint).History Ok noKeys entries p)
    {x : RequestEntry B R} (hx : x ∈ entries) :
    x.after.booked <+: p.shared.booked ∧ x.after.answers <+: p.shared.answers := by
  induction run with
  | refl => cases hx
  | @step entries q q' a past ok st ih =>
    rcases List.mem_append.mp hx with old | new
    · have on := reach_grows (.step .refl ok st)
      exact ⟨(ih old).1.trans on.1, (ih old).2.trans on.2⟩
    · have unfolds := step_unfolds st
      generalize (interceptor R requestFingerprint).logged q a = events at unfolds new
      cases unfolds with
      | quiet => cases new
      | swept => cases new
      | answer y _ after =>
        rw [List.mem_singleton.mp new, after]
        exact ⟨List.prefix_rfl, List.prefix_rfl⟩

theorem handled_booked (run : (interceptor R requestFingerprint).History Ok noKeys entries p)
    {first : Request B} {status : Nat} {body : R}
    (mem : ⟨.handle first, .ok (status, body)⟩ ∈ eventsOf t entries) :
    ⟨first, t, status, body⟩ ∈ p.shared.booked := by
  obtain ⟨x, hx, event⟩ := List.mem_map.mp mem
  obtain ⟨inside, task⟩ := List.mem_filter.mp hx
  obtain ⟨r, j, k, c, -, -, -, -, answered⟩ := run.answered inside
  have grows := entry_grows run inside
  obtain ⟨t', e, o, s, s'⟩ := x
  cases event
  cases beq_iff_eq.mp task
  dsimp only at answered grows
  rw [booked_ok answered] at grows
  exact grows.1.subset (List.mem_append_right _ (List.mem_singleton_self _))

theorem answer_ok {s s' : KeyStore B R} {c : Choice R} {reply : Except Err (Reply R)}
    {o : Except Err Unit} (h : exec t s (.answer reply) c = some (s', o)) :
    s' = { s with answers := s.answers ++ [(t, reply)] } := by
  cases c <;> simp only [exec, Option.some.injEq, Prod.mk.injEq, reduceCtorEq] at h
  exact h.1.symm

theorem retry_answered
    (past : (interceptor R requestFingerprint).History (Unhurried K b) noKeys before p)
    (rest : (interceptor R requestFingerprint).History (Unhurried K b) p later q)
    (job : (q.slot b).job = some request) :
    (q.slot b).isLive = true ∨ ∃ reply, (b, reply) ∈ q.shared.answers := by
  have whole := past.trans rest
  cases slot : q.slot b with
  | idle =>
    rw [slot] at job
    cases job
  | live => exact .inl rfl
  | gone j => exact absurd slot (never_gone whole.reach (fun _ _ fluent => fluent.1) _ _)
  | ended j r =>
    obtain ⟨reply, o, mem⟩ := whole.ends (fun _ _ _ _ _ _ _ => trivial) (intercept_follows j) slot
    obtain ⟨x, hx, event⟩ := List.mem_map.mp mem
    obtain ⟨inside, task⟩ := List.mem_filter.mp hx
    obtain ⟨_, _, _, c, -, -, -, -, answered⟩ := whole.answered inside
    have grows := entry_grows whole inside
    obtain ⟨t, e, o', s, s'⟩ := x
    cases event
    cases beq_iff_eq.mp task
    refine .inr ⟨reply, grows.2.subset ?_⟩
    rw [answer_ok answered]
    exact List.mem_append_right _ (List.mem_singleton_self _)

/-- A retry that starts after the handler of an equal request, and that looks the key up when all
others are through with it. It is never told that the request is in progress: after a success it is
answered by a replay, and after an error by its own handler, unless another request has booked
under the key. -/
theorem finished_not_in_progress (requestFingerprint : String → String → B → String) (K : String)
    (a b : Tid) (first request : Request B) (r : Except Err (Nat × R))
    (before later : List (RequestEntry B R)) (p q : Requests B R)
    (past : (interceptor R requestFingerprint).History (Unhurried K b) noKeys before p)
    (finished : ⟨.handle first, r⟩ ∈ eventsOf a before) (firstKey : first.key = some K)
    (idle : p.slot b = .idle)
    (rest : (interceptor R requestFingerprint).History (Unhurried K b) p later q)
    (job : (q.slot b).job = some request) (key : request.key = some K)
    (same : request.fingerprint requestFingerprint = first.fingerprint requestFingerprint) :
    ((q.slot b).isLive = true ∨ ∃ reply, (b, reply) ∈ q.shared.answers) ∧
    ∀ reply, (b, reply) ∈ q.shared.answers →
      ((∃ o, ⟨.handle request, o⟩ ∈ eventsOf b later ∧ reply = o.map handled) ∨
        reply ≠ .error inProgress) ∧
      (∀ status body, r = .ok (status, body) → reply = .ok ⟨status, some body, true⟩) ∧
      (∀ x, r = .error x → (∀ t ∈ bookedFor K q.shared, t = b) →
        ∃ o, ⟨.handle request, o⟩ ∈ eventsOf b later ∧ reply = o.map handled) := by
  refine ⟨retry_answered past rest job, fun reply sent => ?_⟩
  have cause := retry_cause past idle rest job key sent
  refine ⟨?_, ?_, ?_⟩
  · rcases cause with own | ⟨_, x, _, _, _, _, _, _, eq⟩
    · exact .inl own
    · rw [eq]
      split <;> exact .inr (by simp [otherBody, inProgress])
  · rintro status body rfl
    have booked := handled_booked past finished
    rcases cause with ⟨o, mem, -⟩ | ⟨r, x, early, -, once, here, own, -, eq⟩
    · -- the handler only runs where there is no row, but the booking has one
      obtain ⟨given⟩ := event_given past idle rest mem
      obtain ⟨mine, proceeds⟩ := given.asked
      have claims := (proceeds K (mine ▸ key)).more given.since
      obtain ⟨r, early, once, none⟩ := proceeds_absent past idle rest claims
      have there := (booked_row once ((reach_grows early).1.subset booked) firstKey).1
      rw [none] at there
      cases there
    · have mine := (reach_grows early).1.subset booked
      have one := (booked_row once mine firstKey).2 x here own
      rw [eq, one, if_pos same.symm]
  · rintro x rfl none
    rcases cause with own | ⟨r, x, -, on, once, here, own, other, eq⟩
    · exact own
    · refine absurd (none x.owner (List.mem_map_of_mem (List.mem_filter.mpr ⟨?_, ?_⟩))) other
      · exact (reach_grows on).1.subset here
      · exact beq_iff_eq.mpr own

def Only (ts : List Tid) (p : Requests B R) : Prop := ∀ t, t ∉ ts → p.slot t = .idle

/- A check of `Unhurried` for runs of the requests in `ts`, of which `b` alone looks the row up. -/
def unhurriedCheck (ts : List Tid) (b : Tid) (p : Requests B R) :
    Act (Request B) (Choice R) Ext → Bool
  | .start t _ => ts.contains t
  | .step t c =>
    (match c with | .fail => false | .lostReply => false | _ => true) && ts.contains t &&
      match p.slot t with
      | .live _ (.findKey _) _ => t == b && ts.all fun t' => t' == b || !(p.slot t').isLive
      | _ => true
  | _ => false

variable {ts : List Tid}

theorem only_kept (a : Act (Request B) (Choice R) Ext) (only : Only ts p)
    (h : unhurriedCheck ts b p a = true)
    (st : (interceptor R requestFingerprint).step p a = some q) : Only ts q := by
  intro t part
  have other : a.task ≠ some t := by
    cases a with
    | start t' =>
      rintro ⟨⟩
      exact part (List.contains_iff_mem.mp h)
    | step t' =>
      rintro ⟨⟩
      obtain ⟨checked, -⟩ := Bool.and_eq_true_iff.mp h
      exact part (List.contains_iff_mem.mp (Bool.and_eq_true_iff.mp checked).2)
    | kill => cases h
    | env => cases h
  rw [Machine.steps_slot (Machine.steps_of_step st) other]
  exact only t part

theorem unhurried_of_check (a : Act (Request B) (Choice R) Ext) (only : Only ts p)
    (h : unhurriedCheck ts b p a = true) : Unhurried K b p a := by
  cases a with
  | start => exact ⟨trivial, fun _ _ _ _ same => nomatch same⟩
  | kill => cases h
  | env => cases h
  | step t c =>
    obtain ⟨checked, looks⟩ := Bool.and_eq_true_iff.mp h
    obtain ⟨smooth, -⟩ := Bool.and_eq_true_iff.mp checked
    constructor
    · cases c <;> trivial
    · intro t' c' j k same live
      cases same
      rw [live] at looks
      obtain ⟨mine, through⟩ := Bool.and_eq_true_iff.mp looks
      rw [if_pos (beq_iff_eq.mp mine)]
      intro t' request other job key
      by_cases part : t' ∈ ts
      · simpa [other] using List.all_eq_true.mp through t' part
      · simp [only t' part, Slot.isLive]

/- The first send books and is answered. -/
def answered : List (Act (Request Unit) (Choice Unit) Ext) :=
  [.start 1 click, .step 1 (.time 0), .step 1 .ok, .step 1 (.booked 201 ()), .step 1 .ok]

def again : List (Act (Request Unit) (Choice Unit) Ext) :=
  [.start 2 click, .step 2 (.time 1), .step 2 .ok, .step 2 .ok, .step 2 .ok]

/- The second send comes after the completing update. -/
theorem finished_not_in_progress_replayed : ∃ (p q : Requests Unit Unit)
    (later : List (RequestEntry Unit Unit)),
    (interceptor Unit methodAndUrl).History (Unhurried "c1" 2) p later q ∧
      (1, .ok ⟨201, some (), false⟩) ∈ p.shared.answers ∧
      (2, .ok ⟨201, some (), true⟩) ∈ q.shared.answers := by
  have replay : (((interceptor Unit methodAndUrl).replay (unhurriedCheck [1, 2] 2) noKeys
      (answered ++ [.step 1 .ok])).bind fun x =>
      ((interceptor Unit methodAndUrl).replay (unhurriedCheck [1, 2] 2) x.2 again).map fun y =>
        ((eventsOf 1 x.1)[2]?, x.2.shared.answers, (x.2.slot 2).job, (y.2.slot 2).job,
          (y.2.slot 2).isLive)) =
      some (some ⟨.handle click, .ok (201, ())⟩, [(1, .ok ⟨201, some (), false⟩)], none,
        some click, false) := by rfl
  obtain ⟨⟨before, p⟩, hp, rest⟩ := Option.bind_eq_some_iff.mp replay
  obtain ⟨⟨later, q⟩, hq, seen⟩ := Option.map_eq_some_iff.mp rest
  obtain ⟨third, seen⟩ := Prod.mk.inj seen
  obtain ⟨answers, seen⟩ := Prod.mk.inj seen
  obtain ⟨unstarted, seen⟩ := Prod.mk.inj seen
  obtain ⟨job, through⟩ := Prod.mk.inj seen
  have start : Only [1, 2] (noKeys : Requests Unit Unit) := fun _ _ => rfl
  have past : (interceptor Unit methodAndUrl).History (Unhurried "c1" 2) noKeys ([] ++ before) p ∧
      Only [1, 2] p :=
    Machine.History.of_replay_keeping (fun q a q' => only_kept a)
      (fun q a => unhurried_of_check a) .refl start hp
  have run : (interceptor Unit methodAndUrl).History (Unhurried "c1" 2) p ([] ++ later) q ∧
      Only [1, 2] q :=
    Machine.History.of_replay_keeping (fun q a q' => only_kept a)
      (fun q a => unhurried_of_check a) .refl past.2 hq
  have idle : p.slot 2 = .idle := by
    cases slot : p.slot 2 with
    | idle => rfl
    | _ =>
      rw [slot] at unstarted
      cases unstarted
  obtain ⟨told, replies⟩ := finished_not_in_progress methodAndUrl "c1" 1 2 click click _ before
    later p q past.1 (List.mem_of_getElem? third) rfl idle run.1 job rfl rfl
  obtain ⟨reply, sent⟩ := told.resolve_left (by simp [through])
  have replayed := (replies reply sent).2.1 201 () rfl
  refine ⟨p, q, later, run.1, ?_, replayed ▸ sent⟩
  rw [answers]
  exact List.mem_singleton_self _

/- The second send comes between the answer and the completing update. -/
theorem finished_in_progress : ∃ p q : Requests Unit Unit,
    (interceptor Unit methodAndUrl).Reach (Fluent "c1") noKeys p ∧
      (interceptor Unit methodAndUrl).Reach (Fluent "c1") p q ∧
      (p.slot 1).job = some click ∧ (1, .ok ⟨201, some (), false⟩) ∈ p.shared.answers ∧
      (∀ t, t ≠ 1 → p.slot t = .idle) ∧ (∀ t, t ≠ 2 → q.slot t = p.slot t) ∧
      (q.slot 2).job = some click ∧ (2, .error inProgress) ∈ q.shared.answers := by
  have replay : (((interceptor Unit methodAndUrl).run noKeys answered).bind fun p =>
      ((interceptor Unit methodAndUrl).run p again).map fun q =>
        ((p.slot 1).job, p.shared.answers, (q.slot 2).job, q.shared.answers.getLast?)) =
      some (some click, [(1, .ok ⟨201, some (), false⟩)], some click,
        some (2, .error inProgress)) := by rfl
  obtain ⟨p, hp, rest⟩ := Option.bind_eq_some_iff.mp replay
  obtain ⟨q, hq, seen⟩ := Option.map_eq_some_iff.mp rest
  obtain ⟨job, seen⟩ := Prod.mk.inj seen
  obtain ⟨answers, seen⟩ := Prod.mk.inj seen
  obtain ⟨job', last⟩ := Prod.mk.inj seen
  refine ⟨p, q, .of_run hp ?_, .of_run hq ?_, job, ?_, fun t ne => ?_, fun t ne => ?_, job',
    List.mem_of_getLast? last⟩
  · intro a ha r
    simp only [answered, List.mem_cons, List.not_mem_nil, or_false] at ha
    rcases ha with rfl | rfl | rfl | rfl | rfl <;> trivial
  · intro a ha r
    simp only [again, List.mem_cons, List.not_mem_nil, or_false] at ha
    rcases ha with rfl | rfl | rfl | rfl | rfl <;> trivial
  · rw [answers]
    exact List.mem_singleton_self _
  · exact Machine.runChecked_slot hp (by simp [answered, Act.task, ne.symm])
  · exact Machine.runChecked_slot hq (by simp [again, Act.task, ne.symm])

end Overbook.Idempotency
