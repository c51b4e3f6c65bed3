import Overbook.Bookings.Linear
import Overbook.Redis.Recall
import Overbook.Redis.SingleFlight
import Mathlib.Data.List.DropRight

/-! Bookings beside the readers of a cached event. Each booking invalidates the entry that all
readers share; a reader that has loaded the event before may still be about to write it. -/
namespace Overbook

open Async Prog Store

abbrev Readers := Redis.Calls (Option EventRow)

structure Site where
  replicas : ApiPool
  readers : Readers

/-- What the load function of a key reads: the committed row, or null. -/
def advertised (s : Store) (key : String) : Option EventRow :=
  (s.events (String.ofList (key.toList.drop 12))).map (·.committed)

def soldVersion (s : Store) (t : Tid) (eventId : Uuid) : Nat :=
  (confirmedBookings eventId (s.bookings.rdropWhile fun b => (b.id, t) ∉ s.issued)).length

inductive Site.Act where
  | replica (a : Async.Act Job Choice Ext)
  | reader (a : Async.Act Redis.Call Redis.Choice (Redis.Ext (Option EventRow)))

def recalls (p : ApiPool) : Async.Act Job Choice Ext → Option (Tid × Uuid)
  | .step t .ok =>
    match p.slot t with
    | .live _ (.delCache id) _ => some (t, id)
    | _ => none
  | _ => none

def told (s : Redis.CacheStore (Option EventRow)) (p q : ApiPool) (a : Async.Act Job Choice Ext) :
    Redis.CacheStore (Option EventRow) :=
  match recalls p a with
  | none => { s with database := advertised q.shared }
  | some (t, id) => { s with database := advertised q.shared }.del (Redis.eventCacheKey id)
      (soldVersion q.shared t id)

variable (partition : String → String → Nat) (config : CacheConfig) (rounds : Nat)

/-- The two sides take steps in any order. -/
def Site.step (x : Site) : Site.Act → Option Site
  | .replica a => ((api partition).step x.replicas a).map fun p =>
      ⟨p, ⟨told x.readers.shared x.replicas p a, x.readers.slot⟩⟩
  | .reader (.env (.commit _)) => none
  | .reader (.env (.del _ _)) => none
  | .reader a => ((Redis.cache _ config rounds).step x.readers a).map fun q => ⟨x.replicas, q⟩

def Site.start (clock : Int) : Site := ⟨migrated, Redis.emptyCache clock (advertised {})⟩

abbrev Site.Reach (Ok : Site → Site.Act → Prop) : Site → Site → Prop :=
  Relation.ReflTransGen fun x y => ∃ a, Ok x a ∧ x.step partition config rounds a = some y

/-- Bookings take one of the safe strategies, and Redis answers everybody. -/
def Site.Answering (x : Site) : Site.Act → Prop
  | .replica a => locking.Ok x.replicas a ∧ ∀ t c j id k, a = .step t c →
      x.replicas.slot t = .live j (.delCache id) k → c = .ok
  | .reader a => ∀ t c j e k, a = .step t c → x.readers.slot t = .live j e k →
      (∃ key, e = .load key) ∨ c.healthy = true

def reflects (version : Nat) (v : Option EventRow) : Prop :=
  ∃ row, v = some row ∧ version ≤ row.version

/-- What a reader writes to the cache is as new as every invalidation of it that has been made. -/
def Site.Punctual (eventId : Uuid) (x : Site) : Site.Act → Prop
  | .reader (.step t _) => ∀ j envelope ttlSeconds k,
      x.readers.slot t = .live j (.set (Redis.eventCacheKey eventId) envelope ttlSeconds) k →
      0 < ttlSeconds → ∀ version, (Redis.eventCacheKey eventId, version) ∈ x.readers.shared.deleted →
      reflects version envelope.v
  | _ => True

def payloads (eventId : Uuid) (s : Store) : Redis.Payloads (Option EventRow) where
  key := Redis.eventCacheKey eventId
  genuine v := ∀ row, v = some row → Seen eventId row s
  reflects := reflects

variable {partition config rounds} {eventId : Uuid} {s s' : Store} {t : Tid}

theorem advertised_event (s : Store) (id : Uuid) :
    advertised s (Redis.eventCacheKey id) = (s.events id).map (·.committed) := by
  have suffix : (Redis.eventCacheKey id).toList.drop 12 = id.toList := by
    simp [Redis.eventCacheKey, String.toList_append]
  rw [advertised, suffix, String.ofList_toList]

theorem prefix_rdropWhile {α : Type} {p : α → Bool} {l rest : List α} {x : α} (h : ¬ p x = true) :
    l ++ [x] <+: (l ++ [x] ++ rest).rdropWhile p := by
  induction rest using List.reverseRecOn with
  | nil => simp [List.rdropWhile_concat_neg _ _ _ h]
  | append_singleton rest y ih =>
    rw [← List.append_assoc, List.rdropWhile_concat]
    split
    · exact ih
    · exact ⟨rest ++ [y], List.append_assoc .. |>.symm⟩

theorem soldVersion_counts {before : List BookingRow} {b : BookingRow}
    (sold : before ++ [b] <+: s.bookings) (issued : (b.id, t) ∈ s.issued) :
    (confirmedBookings eventId (before ++ [b])).length ≤ soldVersion s t eventId := by
  obtain ⟨rest, whole⟩ := sold
  have kept : before ++ [b] <+: s.bookings.rdropWhile fun b => (b.id, t) ∉ s.issued := by
    rw [← whole]
    exact prefix_rdropWhile (by simpa using issued)
  exact (kept.filter _).length_le

theorem soldVersion_le : soldVersion s t eventId ≤ (confirmedBookings eventId s.bookings).length :=
  ((List.rdropWhile_prefix _ s.bookings).filter _).length_le

theorem book_must_recall {config : AppConfiguration} {dto : CreateBookingDto}
    {context : BookingContext} :
    (Job.book config eventId dto context).code.Must (· = .delCache eventId) := by
  refine must_bind (must_handle (must_then fun a => ?_) fun x => must_then fun _ => trivial)
  exact must_then fun _ => must_bind (.inl rfl)

/-- The booking of `t` is committed, and its version has been recalled. -/
def Recalled (eventId : Uuid) (t : Tid) (x : Site) : Prop := ∃ before b version,
  (Redis.eventCacheKey eventId, version) ∈ x.readers.shared.deleted ∧
  before ++ [b] <+: x.replicas.shared.bookings ∧ (b.id, t) ∈ x.replicas.shared.issued ∧
  b.eventId = eventId ∧ (confirmedBookings eventId (before ++ [b])).length ≤ version

def Recalls (eventId : Uuid) (x : Site) (t : Tid) :
    Slot Job Effect Effect.Answer Err Response → Prop
  | .live j e k => bookCall eventId j ≠ none →
      (Prog.call e k).Must (· = .delCache eventId) ∨ Recalled eventId t x
  | .ended j (.ok _) => bookCall eventId j ≠ none → Recalled eventId t x
  | _ => True

variable (partition config rounds) in
/-- A site in which only what is new enough has been written to the cache of the event. -/
structure Sited (eventId : Uuid) (clock : Int) (x : Site) : Prop where
  bookings : (api partition).Reach locking.Ok migrated x.replicas
  database : x.readers.shared.database = advertised x.replicas.shared
  readers : (Redis.cache _ config rounds).Reach
    (Redis.Advances (payloads eventId x.replicas.shared))
    (Redis.emptyCache clock (advertised {})) x.readers
  versions : ∀ version, (Redis.eventCacheKey eventId, version) ∈ x.readers.shared.deleted →
    ∃ c, x.replicas.shared.events eventId = some c ∧ version ≤ c.committed.version
  recalls : ∀ t, Recalls eventId x t (x.replicas.slot t)

theorem Recalled.mono {x x' : Site} (h : Recalled eventId t x)
    (deleted : x.readers.shared.deleted ⊆ x'.readers.shared.deleted)
    (grows : Grows x.replicas.shared x'.replicas.shared) : Recalled eventId t x' := by
  obtain ⟨before, b, version, told, sold, issued, event, le⟩ := h
  exact ⟨before, b, version, deleted told, sold.trans grows.bookings, grows.issued.subset issued,
    event, le⟩

theorem Recalls.mono {x x' : Site} {slot : Slot Job Effect Effect.Answer Err Response}
    (h : Recalls eventId x t slot)
    (deleted : x.readers.shared.deleted ⊆ x'.readers.shared.deleted)
    (grows : Grows x.replicas.shared x'.replicas.shared) : Recalls eventId x' t slot := by
  cases slot with
  | live j e k => exact fun asked => (h asked).imp_right fun told => told.mono deleted grows
  | ended j r =>
    cases r with
    | ok response => exact fun asked => (h asked).mono deleted grows
    | error x => trivial
  | _ => trivial

theorem advances_mono {x : Readers} {a : Async.Act Redis.Call Redis.Choice (Redis.Ext (Option EventRow))}
    (l : Lasts s s') (h : Redis.Advances (payloads eventId s) x a) :
    Redis.Advances (payloads eventId s') x a := by
  cases a with
  | start t call => trivial
  | step t c => exact h
  | kill t => trivial
  | env e =>
    cases e with
    | tick d => trivial
    | commit database => exact ⟨fun row shown => seen_lasts (h.1 row shown) l, h.2⟩
    | del key version => exact h

/-- The committed row is the newest: it reflects what an earlier one did. -/
theorem advertised_fits {deleted : List (String × Nat)} (kept : SeatsKept s)
    (versions : ∀ version, (Redis.eventCacheKey eventId, version) ∈ deleted →
      ∃ c, s.events eventId = some c ∧ version ≤ c.committed.version) :
    Redis.Fits (payloads eventId s) deleted (advertised s (Redis.eventCacheKey eventId)) := by
  rw [advertised_event]
  refine ⟨fun row shown => ?_, fun version mem => ?_⟩
  · obtain ⟨c, found, rfl⟩ := Option.map_eq_some_iff.mp shown
    have now := kept.seats eventId c found
    exact ⟨s.bookings, c, List.prefix_refl _, found, now.version, now.counter⟩
  · obtain ⟨c, found, le⟩ := versions version mem
    exact ⟨c.committed, by rw [found]; rfl, le⟩

theorem versions_last (kept : SeatsKept s) (kept' : SeatsKept s') (l : Lasts s s') {version : Nat}
    (h : ∃ c, s.events eventId = some c ∧ version ≤ c.committed.version) :
    ∃ c, s'.events eventId = some c ∧ version ≤ c.committed.version := by
  obtain ⟨c, found, le⟩ := h
  obtain ⟨c', found', -⟩ := l.totals eventId c found
  refine ⟨c', found', le.trans ?_⟩
  rw [(kept.seats eventId c found).version, (kept'.seats eventId c' found').version]
  exact (l.grows.bookings.filter _).length_le

theorem recalls_some {p : ApiPool} {a : Async.Act Job Choice Ext} {id : Uuid}
    (h : recalls p a = some (t, id)) : a = .step t .ok ∧ ∃ j k, p.slot t = .live j (.delCache id) k := by
  unfold recalls at h
  split at h
  · rename_i t'
    split at h
    · rename_i j id' k live
      cases h
      exact ⟨rfl, j, k, live⟩
    · cases h
  · cases h

theorem told_deleted {r : Redis.CacheStore (Option EventRow)} {p q : ApiPool}
    {a : Async.Act Job Choice Ext} : r.deleted <+: (told r p q a).deleted := by
  unfold told
  split
  · exact List.prefix_refl _
  · exact List.prefix_append ..

theorem told_reach {Ok : Readers → Async.Act Redis.Call Redis.Choice (Redis.Ext (Option EventRow)) → Prop}
    {r : Readers} {p q : ApiPool} {a : Async.Act Job Choice Ext}
    (commit : Ok r (.env (.commit (advertised q.shared))))
    (del : ∀ t id, recalls p a = some (t, id) →
      Ok ⟨{ r.shared with database := advertised q.shared }, r.slot⟩
        (.env (.del (Redis.eventCacheKey id) (soldVersion q.shared t id)))) :
    (Redis.cache _ config rounds).Reach Ok r ⟨told r.shared p q a, r.slot⟩ := by
  have first : (Redis.cache _ config rounds).Reach Ok r
      ⟨{ r.shared with database := advertised q.shared }, r.slot⟩ := .step .refl commit rfl
  unfold told
  split
  · exact first
  · rename_i t id let_through
    exact .step first (del t id let_through) rfl

/-- When the cache is told of a booking, the booking is committed. -/
theorem recalled_sold {p : ApiPool} {j : Job} {k : Except Err Unit → Service Response}
    (run : (api partition).Reach locking.Ok migrated p)
    (live : p.slot t = .live j (.delCache eventId) k) :
    ∃ quantity remaining, Sold eventId quantity t remaining p.shared :=
  ((ledger_sound (run.assigned .refl)).here live).2

/-- A settled or waiting call after a step of its own: if it has got past its invalidation, its
booking has been recalled. -/
theorem recalls_settle {x : Site} {j : Job} {b : Service Response}
    (h : bookCall eventId j ≠ none → b.Must (· = .delCache eventId) ∨ Recalled eventId t x) :
    Recalls eventId x t ((api partition).settle t j s b).2 := by
  cases b with
  | done r =>
    intro asked
    exact (h asked).resolve_left id
  | fail e => trivial
  | call e k => exact h

theorem recalls_step {x : Site} {p : ApiPool} {a : Async.Act Job Choice Ext}
    (run : (api partition).Reach locking.Ok migrated x.replicas)
    (answering : x.Answering (.replica a)) (st : (api partition).step x.replicas a = some p)
    (h : Recalls eventId x t (x.replicas.slot t))
    (grows : Grows x.replicas.shared p.shared) : Recalls eventId
      ⟨p, ⟨told x.readers.shared x.replicas p a, x.readers.slot⟩⟩ t (p.slot t) := by
  by_cases other : a.task = some t
  · cases Machine.steps_of_step st with
    | @start t j idle ready =>
      cases Option.some.inj other
      rw [Machine.put_self]
      refine recalls_settle fun asked => .inl ?_
      cases j with
      | book config e dto context =>
        by_cases same : e = eventId
        · subst same
          exact book_must_recall
        · exact absurd (by simp [bookCall, same]) asked
      | _ => exact absurd rfl asked
    | @step t c j e k s r live answered =>
      cases Option.some.inj other
      rw [Machine.put_self]
      refine recalls_settle fun asked => ?_
      rw [live] at h
      rcases h asked with (rfl | must) | told
      · -- the cache is told now
        have ok := answering.2 t c j eventId k rfl live
        subst ok
        have let_through : recalls x.replicas (.step t .ok) = some (t, eventId) := by
          simp [recalls, live]
        obtain ⟨quantity, remaining, c, before, b, row, sold, issued, event, -, -⟩ :=
          recalled_sold run live
        have sold' := sold.trans grows.bookings
        have issued' := grows.issued.subset issued
        refine .inr ⟨before, b, _, ?_, sold', issued', event, soldVersion_counts sold' issued'⟩
        simp only [told, let_through]
        exact List.mem_append_right _ (List.mem_singleton_self _)
      · exact .inl (must r)
      · exact .inr (told.mono told_deleted.subset grows)
    | @kill t j e k live =>
      cases Option.some.inj other
      have gone : Function.update x.replicas.slot t (.gone j) t = .gone j :=
        Function.update_self ..
      change Recalls eventId _ t (Function.update x.replicas.slot t (.gone j) t)
      rw [gone]
      trivial
    | env => cases other
  · rw [Machine.steps_slot (Machine.steps_of_step st) other]
    exact h.mono told_deleted.subset grows

theorem sited_replica {clock : Int} {x : Site} {p : ApiPool} {a : Async.Act Job Choice Ext}
    (h : Sited partition config rounds eventId clock x) (answering : x.Answering (.replica a))
    (st : (api partition).step x.replicas a = some p) :
    Sited partition config rounds eventId clock
      ⟨p, ⟨told x.readers.shared x.replicas p a, x.readers.slot⟩⟩ := by
  have once : (api partition).Reach locking.Ok x.replicas p := .step .refl answering.1 st
  have kept := seats_kept h.bookings
  have kept' := seats_kept (h.bookings.trans once)
  have lasts := locking_lasts h.bookings once
  have older : ∀ version, (Redis.eventCacheKey eventId, version) ∈ x.readers.shared.deleted →
      ∃ c, p.shared.events eventId = some c ∧ version ≤ c.committed.version :=
    fun version mem => versions_last kept kept' lasts (h.versions version mem)
  -- the version that is recalled is that of a committed booking
  have recalled : ∀ t, recalls x.replicas a = some (t, eventId) →
      ∃ c, p.shared.events eventId = some c ∧
        soldVersion p.shared t eventId ≤ c.committed.version := by
    intro t let_through
    obtain ⟨-, j, k, live⟩ := recalls_some let_through
    obtain ⟨quantity, remaining, sold⟩ := recalled_sold h.bookings live
    obtain ⟨c, before, b, found, -⟩ := sold.lasts lasts
    refine ⟨c, found, ?_⟩
    rw [(kept'.seats eventId c found).version]
    exact soldVersion_le
  constructor
  · exact h.bookings.trans once
  · unfold told
    split <;> rfl
  · refine (h.readers.mono fun _ _ => advances_mono lasts).trans (told_reach ?_ ?_)
    · exact advertised_fits kept' older
    · intro t id let_through same
      have eq : id = eventId := String.append_right_inj _ |>.mp same
      subst eq
      obtain ⟨c, found, le⟩ := recalled t let_through
      change reflects _ (advertised p.shared (Redis.eventCacheKey id))
      rw [advertised_event]
      exact ⟨c.committed, by rw [found]; rfl, le⟩
  · intro version mem
    simp only [told] at mem
    split at mem
    · exact older version mem
    · rename_i t id let_through
      rcases List.mem_append.mp mem with mem | mem
      · exact older version mem
      · obtain ⟨same, rfl⟩ := Prod.mk.inj (List.mem_singleton.mp mem)
        have eq : eventId = id := String.append_right_inj _ |>.mp same
        subst eq
        exact recalled t let_through
  · exact fun t => recalls_step h.bookings answering st (h.recalls t) lasts.grows

theorem reader_keeps {q q' : Readers}
    {a : Async.Act Redis.Call Redis.Choice (Redis.Ext (Option EventRow))}
    (own : ∀ x, a = .env x → ∃ d, x = .tick d)
    (st : (Redis.cache _ config rounds).step q a = some q') :
    q'.shared.database = q.shared.database ∧ q'.shared.deleted = q.shared.deleted := by
  have settled : ∀ t call s (b : Redis.Cached (Option EventRow) Unit),
      ((Redis.cache _ config rounds).settle t call s b).1 = s := by
    intro t call s b
    cases b <;> rfl
  have moved : ∀ {t e s c} {r : Except Err e.Answer}, Redis.exec t q.shared e c = some (s, r) →
      s.database = q.shared.database ∧ s.deleted = q.shared.deleted := by
    intro t e s c r he
    cases Redis.exec_moves he with
    | released => unfold Redis.CacheStore.release; split <;> exact ⟨rfl, rfl⟩
    | _ => exact ⟨rfl, rfl⟩
  cases Machine.steps_of_step st with
  | start idle ready => simp only [Machine.put, settled, and_self]
  | step live answered => simp only [Machine.put, settled, moved answered, and_self]
  | kill live => exact ⟨rfl, rfl⟩
  | @env x s happened =>
    obtain ⟨d, rfl⟩ := own x rfl
    simp only [Redis.cache, Redis.ext] at happened
    split at happened
    · cases happened
      exact ⟨rfl, rfl⟩
    · cases happened

theorem sited_reader {clock : Int} {x : Site} {q : Readers}
    {a : Async.Act Redis.Call Redis.Choice (Redis.Ext (Option EventRow))}
    (h : Sited partition config rounds eventId clock x) (punctual : x.Punctual eventId (.reader a))
    (own : ∀ x, a = .env x → ∃ d, x = .tick d)
    (st : (Redis.cache _ config rounds).step x.readers a = some q) :
    Sited partition config rounds eventId clock ⟨x.replicas, q⟩ := by
  obtain ⟨database, deleted⟩ := reader_keeps own st
  constructor
  · exact h.bookings
  · exact database.trans h.database
  · refine h.readers.step ?_ st
    cases a with
    | start t call => trivial
    | kill t => trivial
    | env e =>
      obtain ⟨d, rfl⟩ := own e rfl
      trivial
    | step t c =>
      intro j e k live
      cases e with
      | set key envelope ttlSeconds =>
        rintro rfl lasts _
        exact punctual j envelope ttlSeconds k live lasts
      | _ => trivial
  · intro version mem
    rw [deleted] at mem
    exact h.versions version mem
  · intro t
    refine (h.recalls t).mono ?_ (.refl _)
    rw [deleted]
    exact fun _ h => h

def Site.Careful (eventId : Uuid) (x : Site) (a : Site.Act) : Prop :=
  x.Answering a ∧ x.Punctual eventId a

theorem sited {clock : Int} {x : Site}
    (run : Site.Reach partition config rounds (Site.Careful eventId) (.start clock) x) :
    Sited partition config rounds eventId clock x := by
  induction run with
  | refl => exact ⟨.refl, rfl, .refl, fun _ h => (nomatch h), fun _ => trivial⟩
  | @tail x y _ step ih =>
    obtain ⟨a, ⟨answering, punctual⟩, st⟩ := step
    cases a with
    | replica a =>
      obtain ⟨p, hp, rfl⟩ := Option.map_eq_some_iff.mp st
      exact sited_replica ih answering hp
    | reader a =>
      have reader : ∀ {a}, (∀ x, a = .env x → ∃ d, x = .tick d) → x.Punctual eventId (.reader a) →
          ((Redis.cache _ config rounds).step x.readers a).map (⟨x.replicas, ·⟩) = some y →
          Sited partition config rounds eventId clock y := by
        intro a own punctual st
        obtain ⟨q, hq, rfl⟩ := Option.map_eq_some_iff.mp st
        exact sited_reader ih punctual own hq
      cases a with
      | start t call => exact reader (a := .start t call) (fun _ h => nomatch h) punctual st
      | step t c => exact reader (a := .step t c) (fun _ h => nomatch h) punctual st
      | kill t => exact reader (a := .kill t) (fun _ h => nomatch h) punctual st
      | env e =>
        cases e with
        | tick d => exact reader (fun x same => ⟨d, (Async.Act.env.inj same).symm⟩) punctual st
        | commit database => cases st
        | del key version => cases st

theorem readers_reach {Ok : Site → Site.Act → Prop} {x y : Site}
    (run : Site.Reach partition config rounds Ok x y) :
    (Redis.cache _ config rounds).Reach (fun _ _ => True) x.readers y.readers := by
  induction run with
  | refl => exact .refl
  | tail _ step ih =>
    obtain ⟨a, -, st⟩ := step
    refine ih.trans ?_
    cases a with
    | replica a =>
      obtain ⟨p, -, rfl⟩ := Option.map_eq_some_iff.mp st
      exact told_reach trivial fun _ _ _ => trivial
    | reader a =>
      have once : ∀ {x y : Site} {a}, ((Redis.cache _ config rounds).step x.readers a).map
          (Site.mk x.replicas) = some y →
          (Redis.cache _ config rounds).Reach (fun _ _ => True) x.readers y.readers := by
        intro x y a st
        obtain ⟨q, hq, rfl⟩ := Option.map_eq_some_iff.mp st
        exact .step .refl trivial hq
      cases a with
      | start t call => exact once st
      | step t c => exact once st
      | kill t => exact once st
      | env e =>
        cases e with
        | tick d => exact once st
        | commit database => cases st
        | del key version => cases st

theorem bookings_reach {x y : Site}
    (run : Site.Reach partition config rounds (Site.Careful eventId) x y) :
    (api partition).Reach locking.Ok x.replicas y.replicas := by
  induction run with
  | refl => exact .refl
  | tail _ step ih =>
    obtain ⟨a, ⟨answering, -⟩, st⟩ := step
    cases a with
    | replica a =>
      obtain ⟨p, hp, rfl⟩ := Option.map_eq_some_iff.mp st
      exact ih.step answering.1 hp
    | reader a =>
      have same : ∀ {x y : Site} {a}, ((Redis.cache _ config rounds).step x.readers a).map
          (Site.mk x.replicas) = some y → y.replicas = x.replicas := by
        intro x y a st
        obtain ⟨q, -, rfl⟩ := Option.map_eq_some_iff.mp st
        rfl
      cases a with
      | start t call => rw [same st]; exact ih
      | step t c => rw [same st]; exact ih
      | kill t => rw [same st]; exact ih
      | env e =>
        cases e with
        | tick d => rw [same st]; exact ih
        | commit database => cases st
        | del key version => cases st

theorem quantity_le {before after bookings : List BookingRow} (hb : before <+: bookings)
    (ha : after <+: bookings)
    (count : (confirmedBookings eventId before).length ≤ (confirmedBookings eventId after).length) :
    confirmedQuantity eventId before ≤ confirmedQuantity eventId after := by
  have sub : confirmedBookings eventId before <+: confirmedBookings eventId after :=
    List.prefix_of_prefix_length_le (hb.filter _) (ha.filter _) count
  obtain ⟨more, eq⟩ := sub
  have sums := congrArg (fun l => (l.map BookingRow.quantity).sum) eq
  simp only [List.map_append, List.sum_append] at sums
  exact Nat.le_of_add_right_le (Nat.le_of_eq sums)

theorem place_unique {bookings before before' : List BookingRow} {b : BookingRow}
    (nodup : bookings.Nodup) (h : before ++ [b] <+: bookings) (h' : before' ++ [b] <+: bookings) :
    before = before' := by
  obtain ⟨rest, eq⟩ := h
  obtain ⟨rest', eq'⟩ := h'
  have same := eq.trans eq'.symm
  rw [← eq, List.append_assoc] at nodup
  simp only [List.append_assoc, List.singleton_append] at same nodup
  obtain ⟨-, tail, apart⟩ := List.nodup_append.mp nodup
  refine ((List.append_cons_inj_of_notMem (fun mem => ?_) (List.nodup_cons.mp tail).1).mp same).1
  exact apart b mem b (List.mem_cons_self ..) rfl

variable (partition config rounds) in
def Site.run (ok : Site → Site.Act → Bool) (x : Site) : List Site.Act → Option Site
  | [] => some x
  | a :: as =>
    if ok x a then (x.step partition config rounds a).bind fun y => Site.run ok y as else none

theorem Site.reach_of_run {Ok : Site → Site.Act → Prop} {ok : Site → Site.Act → Bool}
    (sound : ∀ x a, ok x a = true → Ok x a) {as : List Site.Act} {x y : Site}
    (h : Site.run partition config rounds ok x as = some y) :
    Site.Reach partition config rounds Ok x y := by
  induction as generalizing x with
  | nil => cases Option.some.inj h; exact .refl
  | cons a as ih =>
    unfold Site.run at h
    split at h
    · rename_i passed
      obtain ⟨z, hz, rest⟩ := Option.bind_eq_some_iff.mp h
      exact .head ⟨a, sound x a passed, hz⟩ (ih rest)
    · cases h

def Site.answers (x : Site) : Site.Act → Bool
  | .replica (.start _ (.book settings _ _ _)) => settings.booking.lockStrategy != .none
  | .replica (.start _ _) => true
  | .replica (.step t c) =>
    match x.replicas.slot t, c with
    | .live _ (.delCache _) _, .ok => true
    | .live _ (.delCache _) _, _ => false
    | _, _ => true
  | .reader (.step _ c) => c.healthy
  | .reader (.start _ _) => true
  | _ => false

def Site.writes (eventId : Uuid) (x : Site) : Site.Act → Bool
  | .reader (.step t _) =>
    match x.readers.slot t with
    | .live _ (.set _ envelope _) _ => x.readers.shared.deleted.all fun d =>
        d.1 != Redis.eventCacheKey eventId || envelope.v.any fun row => d.2 ≤ row.version
    | _ => true
  | _ => true

theorem answering_of_check {x : Site} {a : Site.Act} (h : x.answers a = true) : x.Answering a := by
  cases a with
  | replica a =>
    cases a with
    | start t j =>
      refine ⟨?_, fun _ _ _ _ _ other => nomatch other⟩
      cases j with
      | book settings e dto context => simpa [Site.answers, locking, Regime.any, Regime.Ok] using h
      | _ => trivial
    | step t c =>
      refine ⟨fun _ _ _ _ => trivial, ?_⟩
      rintro t' c' j id k same live
      cases same
      simp only [Site.answers, live] at h
      cases c with
      | ok => rfl
      | _ => cases h
    | kill t => cases h
    | env x => cases h
  | reader a =>
    rintro t c j e k rfl -
    exact .inr h

theorem punctual_of_check {x : Site} {a : Site.Act} (h : x.writes eventId a = true) :
    x.Punctual eventId a := by
  cases a with
  | replica a => trivial
  | reader a =>
    cases a with
    | step t c =>
      intro j envelope ttlSeconds k live _ version mem
      simp only [Site.writes, live] at h
      have new := List.all_eq_true.mp h _ mem
      simp only [bne_self_eq_false, Bool.false_or] at new
      obtain ⟨row, shown, le⟩ := (Option.any_eq_true _ _).mp new
      exact ⟨row, shown, of_decide_eq_true le⟩
    | _ => trivial

/- Two seats are for sale, one of them is booked, and reader 6 comes afterwards. -/

def onSale : List Site.Act :=
  [.replica (.start 0 (.create (.checked "show" "hall" 2 0 "2026-12-01T12:00:00Z" passed))),
    .replica (.step 0 (.uuid "e"))]

def oneSale : List Site.Act :=
  [.replica (.start 1 (.book {} "e" (.checked "user-1" 1 passed) {})), .replica (.step 1 .ok),
    .replica (.step 1 .ok), .replica (.step 1 .ok), .replica (.step 1 (.uuid "b")),
    .replica (.step 1 (.time 0)), .replica (.step 1 (.uuid "m")), .replica (.step 1 .ok),
    .replica (.step 1 .ok), .replica (.step 1 .ok)]

def reading (t : Tid) (after : Nat) : Site.Act :=
  .reader (.start t { key := Redis.eventCacheKey "e", after })

def oks (t : Tid) (n : Nat) : List Site.Act := List.replicate n (.reader (.step t .ok))

/- Reader 5 misses and loads the event. -/
def loading : List Site.Act :=
  reading 5 0 :: oks 5 2 ++ [.reader (.step 5 (.uuid "u"))] ++ oks 5 2

def Site.shown (x : Site) : List (Tid × Option (Nat × Int)) :=
  x.readers.shared.answers.map fun (t, r) =>
    (t, (r.toOption.join).map fun row => (row.version, row.availableSeats))

def Site.reported (x : Site) (t : Tid) : Option Int :=
  match x.replicas.slot t with
  | .ended _ (.ok (.booked response)) => some response.seatsRemaining
  | _ => none

theorem reported_some {x : Site} {n : Int} (h : x.reported t = some n) :
    ∃ j response, x.replicas.slot t = .ended j (.ok (.booked response)) ∧
      response.seatsRemaining = n := by
  unfold Site.reported at h
  split at h
  · rename_i j response ended
    exact ⟨j, response, ended, Option.some.inj h⟩
  · cases h

theorem shown_some {x : Site} {version : Nat} {seats : Int}
    (h : (t, some (version, seats)) ∈ x.shown) : ∃ row : EventRow,
      (t, .ok (some row)) ∈ x.readers.shared.answers ∧ row.version = version ∧
      row.availableSeats = seats := by
  obtain ⟨⟨t', r⟩, mem, same⟩ := List.mem_map.mp h
  obtain ⟨rfl, shown⟩ := Prod.mk.inj same
  obtain ⟨row, read, pair⟩ := Option.map_eq_some_iff.mp shown
  obtain ⟨rfl, rfl⟩ := Prod.mk.inj pair
  cases r with
  | error e => cases read
  | ok v => exact ⟨row, (show v = some row from read) ▸ mem, rfl, rfl⟩

structure Site.Facts where
  asked : Option Nat
  reported : Option Int
  reading : Option String
  shown : List (Tid × Option (Nat × Int))
  deriving DecidableEq

def Site.facts (x : Site) : Site.Facts where
  asked := (x.replicas.slot 1).job.bind (bookCall "e")
  reported := x.reported 1
  reading := (x.readers.slot 6).job.map (·.key)
  shown := x.shown

/-- A call for one seat returns, after which reader 6 starts; what the two are answered. -/
def Reads (Ok : Site → Site.Act → Prop) (left : Int) (version : Nat) (seats : Int) : Prop :=
  ∃ x y, Site.Reach (fun _ _ => 0) Redis.noJitter 1 Ok (.start 0) x ∧
    Site.Reach (fun _ _ => 0) Redis.noJitter 1 Ok x y ∧
    (∃ settings dto context response, response.seatsRemaining = left ∧
      x.replicas.slot 1 = .ended (.book settings "e" dto context) (.ok (.booked response))) ∧
    x.readers.slot 6 = .idle ∧ (∃ call, (y.readers.slot 6).job = some call ∧
      call.key = Redis.eventCacheKey "e") ∧
    ∃ row, (6, .ok (some row)) ∈ y.readers.shared.answers ∧ row.version = version ∧
      row.availableSeats = seats

theorem replay_reads {Ok : Site → Site.Act → Prop} (ok : Site → Site.Act → Bool)
    (sound : ∀ x a, ok x a = true → Ok x a) (as bs : List Site.Act) {left seats : Int}
    {version : Nat} (others : List (Tid × Option (Nat × Int)))
    (h : ((Site.run (fun _ _ => 0) Redis.noJitter 1 ok (.start 0) as).bind fun x =>
      (Site.run (fun _ _ => 0) Redis.noJitter 1 ok x bs).map fun y => (x.facts, y.facts)) =
        some (⟨some 1, some left, none, []⟩, ⟨some 1, some left, some (Redis.eventCacheKey "e"),
          others ++ [(6, some (version, seats))]⟩)) :
    Reads Ok left version seats := by
  obtain ⟨x, first, rest⟩ := Option.bind_eq_some_iff.mp h
  obtain ⟨y, second, facts⟩ := Option.map_eq_some_iff.mp rest
  obtain ⟨before, after⟩ := Prod.mk.inj facts
  obtain ⟨asked, reported, unread, -⟩ := Site.Facts.mk.inj before
  obtain ⟨-, -, reading, shown⟩ := Site.Facts.mk.inj after
  obtain ⟨j, response, ended, rfl⟩ := reported_some reported
  obtain ⟨call, job, key⟩ := Option.map_eq_some_iff.mp reading
  have last : (6, some (version, seats)) ∈ y.shown := by
    rw [shown]
    exact List.mem_append_right _ (List.mem_singleton_self _)
  obtain ⟨row, answered, rfl, rfl⟩ := shown_some last
  refine ⟨x, y, Site.reach_of_run sound first, Site.reach_of_run sound second, ?_, ?_,
    ⟨call, job, key⟩, row, answered, rfl, rfl⟩
  · rw [ended] at asked
    cases j with
    | book settings e dto context =>
      simp only [Slot.job, Option.bind_some, bookCall] at asked
      split at asked
      · rename_i same
        subst same
        exact ⟨settings, dto, context, response, rfl, ended⟩
      · cases asked
    | _ => cases asked
  · cases idle : x.readers.slot 6 with
    | idle => rfl
    | _ => simp [idle, Slot.job] at unread

end Overbook
