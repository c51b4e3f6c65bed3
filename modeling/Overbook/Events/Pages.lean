import Overbook.Keyset
import Overbook.Store.Tables

/-! `EventsService.list`, and a client that follows `nextCursor` while the table may grow. -/
namespace Overbook.Events

open Keyset

variable {Id : Type} [LinearOrder Id]

/-- The table `events` under its primary key. -/
structure EventTable (Id : Type) where
  rows : List (Id × EventRow)
  distinct : (rows.map Prod.fst).Nodup

def EventTable.ids (T : EventTable Id) : List Id := T.rows.map Prod.fst

/-- A query that the validation lets through. -/
structure ListEventsDto (Id : Type) where
  cursor : Option Id := none
  limit : Nat := 20
  min : 1 ≤ limit := by decide
  max : limit ≤ 100 := by decide

/- `createdAt` is kept as the instant whose ISO text is sent. -/
structure EventResponseDto (Id : Type) where
  id : Id
  name : String
  venue : String
  totalSeats : Int
  availableSeats : Int
  priceCents : Int
  startsAt : String
  version : Nat
  createdAt : Time
  deriving DecidableEq

def EventResponseDto.fromEvent (event : Id × EventRow) : EventResponseDto Id :=
  { id := event.1
    name := event.2.name
    venue := event.2.venue
    totalSeats := event.2.totalSeats
    availableSeats := event.2.availableSeats
    priceCents := event.2.priceCents
    startsAt := event.2.startsAt
    version := event.2.version
    createdAt := event.2.createdAt }

structure EventPageDto (Id : Type) where
  items : List (EventResponseDto Id)
  nextCursor : Option Id

namespace EventTable

variable (T : EventTable Id)

/- `orderBy('event.id', 'ASC')`, with the `where` clause when there is a cursor. -/
def after (cursor : Option Id) : List (Id × EventRow) :=
  ordered Prod.fst (T.rows.filter (above Prod.fst cursor))

def getMany (cursor : Option Id) (limit : Nat) : List (Id × EventRow) := (T.after cursor).take limit

def list (query : ListEventsDto Id) : EventPageDto Id :=
  let rows := T.getMany query.cursor (query.limit + 1)
  let hasMore := decide (query.limit < rows.length)
  let items := if hasMore then rows.take query.limit else rows
  { items := items.map .fromEvent
    nextCursor := if hasMore then items.getLast?.map Prod.fst else none }

end EventTable

/-- What a client asks for, and the table that it finds. -/
structure Request (Id : Type) where
  table : EventTable Id
  limit : Nat
  min : 1 ≤ limit
  max : limit ≤ 100

def Request.query (r : Request Id) (cursor : Option Id) : ListEventsDto Id :=
  ⟨cursor, r.limit, r.min, r.max⟩

/-- The pages that a client gets that starts at the cursor and follows `nextCursor`. -/
def follow : Option Id → List (Request Id) → List (EventPageDto Id)
  | _, [] => []
  | cursor, r :: requests =>
    let page := r.table.list (r.query cursor)
    page :: match page.nextCursor with
      | none => []
      | some next => follow (some next) requests

def Complete (pages : List (EventPageDto Id)) : Prop :=
  ∃ page, pages.getLast? = some page ∧ page.nextCursor = none

def returned (pages : List (EventPageDto Id)) : List (EventResponseDto Id) := pages.flatMap (·.items)

section Page

variable {T : EventTable Id} {cursor : Option Id}

theorem after_increasing : Increasing Prod.fst (T.after cursor) :=
  ordered_increasing ((List.filter_sublist.map _).nodup T.distinct)

theorem mem_after {e : Id × EventRow} :
    e ∈ T.after cursor ↔ e ∈ T.rows ∧ above Prod.fst cursor e = true := by
  simp [EventTable.after, mem_ordered]

theorem list_eq (query : ListEventsDto Id) :
    T.list query =
      { items := ((T.after query.cursor).take query.limit).map .fromEvent
        nextCursor := if query.limit < (T.after query.cursor).length then
          ((T.after query.cursor).take query.limit).getLast?.map Prod.fst else none } := by
  unfold EventTable.list EventTable.getMany
  generalize T.after query.cursor = rows
  by_cases more : query.limit < rows.length
  · simp [more, List.take_take]
  · have short : rows.length ≤ query.limit := Nat.le_of_not_lt more
    simp [more, List.take_of_length_le short, List.take_of_length_le (Nat.le_succ_of_le short)]

theorem next_none (query : ListEventsDto Id) :
    (T.list query).nextCursor = none ↔ (T.after query.cursor).length ≤ query.limit := by
  have min := query.min
  rw [list_eq]
  dsimp only
  split
  · rename_i more
    have some_row : (T.after query.cursor).take query.limit ≠ [] := by
      intro none
      have length := congrArg List.length none
      rw [List.length_take, List.length_nil] at length
      omega
    simp [Nat.not_le_of_lt more, some_row]
  · rename_i short
    simp [Nat.le_of_not_lt short]

/-- The cursor of the next page is the last row of this one, and what follows it is what this page
has left. -/
theorem next_some (query : ListEventsDto Id) {next : Id}
    (h : (T.list query).nextCursor = some next) :
    T.after (some next) = (T.after query.cursor).drop query.limit ∧
      (∃ last ∈ (T.after query.cursor).take query.limit, last.1 = next) ∧
      ∀ e ∈ (T.after query.cursor).take query.limit, e.1 ≤ next := by
  rw [list_eq] at h
  dsimp only at h
  split at h
  · obtain ⟨last, end_row, rfl⟩ := Option.map_eq_some_iff.mp h
    have here : last ∈ (T.after query.cursor).take query.limit := List.mem_of_getLast? end_row
    refine ⟨?_, ⟨last, here, rfl⟩, (after_increasing.take query.limit).le_last end_row⟩
    rw [← after_increasing.above_last end_row]
    unfold EventTable.after
    rw [ordered_filter T.distinct, ordered_filter T.distinct, filter_above_above]
    intro bound same
    have higher := (mem_after.mp (List.mem_of_mem_take here)).2
    rw [same, above_some] at higher
    exact le_of_lt higher
  · cases h

theorem next_none_iff (query : ListEventsDto Id) :
    (T.list query).nextCursor = none ↔ ¬ ∃ e ∈ T.rows, (∀ c, query.cursor = some c → c < e.1) ∧
      ∀ x ∈ (T.list query).items, x.id < e.1 := by
  have bound : ∀ e : Id × EventRow,
      (∀ c, query.cursor = some c → c < e.1) ↔ above Prod.fst query.cursor e = true := by
    intro e
    cases query.cursor <;> simp
  rw [next_none, list_eq]
  constructor
  · rintro short ⟨e, mem, follows, beyond⟩
    have here : e ∈ (T.after query.cursor).take query.limit := by
      rw [List.take_of_length_le short]
      exact mem_after.mpr ⟨mem, (bound e).mp follows⟩
    exact lt_irrefl _ (beyond _ (List.mem_map_of_mem here))
  · intro none
    by_contra long
    have more : query.limit < (T.after query.cursor).length := Nat.lt_of_not_le long
    have e_mem := List.getElem_mem more
    have page : Increasing Prod.fst (T.after query.cursor) := after_increasing
    refine none ⟨_, (mem_after.mp e_mem).1, (bound _).mpr (mem_after.mp e_mem).2, ?_⟩
    intro x mem
    obtain ⟨a, a_mem, rfl⟩ := List.mem_map.mp mem
    obtain ⟨i, i_lt, rfl⟩ := List.mem_take_iff_getElem.mp a_mem
    exact List.pairwise_iff_getElem.mp page i query.limit _ more (by omega)

end Page

section Walk

variable {cursor : Option Id} {requests : List (Request Id)}

/-- Events are inserted between the requests and never deleted. -/
def Grows (requests : List (Request Id)) : Prop :=
  requests.Pairwise fun r r' => r.table.ids ⊆ r'.table.ids

theorem follow_last {r : Request Id} (h : (r.table.list (r.query cursor)).nextCursor = none) :
    follow cursor (r :: requests) = [r.table.list (r.query cursor)] := by
  simp only [follow, h]

theorem follow_next {r : Request Id} {next : Id}
    (h : (r.table.list (r.query cursor)).nextCursor = some next) :
    follow cursor (r :: requests) =
      r.table.list (r.query cursor) :: follow (some next) requests := by
  simp only [follow, h]

omit [LinearOrder Id] in
theorem returned_cons (page : EventPageDto Id) (pages : List (EventPageDto Id)) :
    returned (page :: pages) = page.items ++ returned pages := List.flatMap_cons ..

omit [LinearOrder Id] in
theorem complete_next {page : EventPageDto Id} {next : Id} (more : page.nextCursor = some next)
    (pages : List (EventPageDto Id)) : Complete (page :: pages) ↔ Complete pages := by
  unfold Complete
  cases pages with
  | nil => simp [more]
  | cons p ps => simp [List.getLast?_cons_cons]

theorem page_ids {T : EventTable Id} (query : ListEventsDto Id) :
    (T.list query).items.map (·.id) = ((T.after query.cursor).take query.limit).map Prod.fst := by
  rw [list_eq, List.map_map]
  rfl

/-- The ids go up and stay above the cursor, whatever is inserted. -/
theorem follow_increasing (cursor : Option Id) (requests : List (Request Id)) :
    ((returned (follow cursor requests)).map (·.id)).Pairwise (· < ·) ∧
      ∀ i ∈ (returned (follow cursor requests)).map (·.id), ∀ c, cursor = some c → c < i := by
  induction requests generalizing cursor with
  | nil => simp [follow, returned]
  | cons r requests ih =>
    have sorted : ((r.table.list (r.query cursor)).items.map (·.id)).Pairwise (· < ·) := by
      rw [page_ids]
      exact List.pairwise_map.mpr (after_increasing.take _)
    have higher : ∀ i ∈ (r.table.list (r.query cursor)).items.map (·.id), ∀ c,
        cursor = some c → c < i := by
      intro i mem c same
      rw [page_ids] at mem
      obtain ⟨e, e_mem, rfl⟩ := List.mem_map.mp mem
      have follows := (mem_after.mp (List.mem_of_mem_take e_mem)).2
      rwa [show (r.query cursor).cursor = cursor from rfl, same, above_some] at follows
    cases h : (r.table.list (r.query cursor)).nextCursor with
    | none =>
      rw [follow_last h, returned_cons, show returned ([] : List (EventPageDto Id)) = [] from rfl,
        List.append_nil]
      exact ⟨sorted, higher⟩
    | some next =>
      obtain ⟨-, ⟨last, last_mem, rfl⟩, below⟩ := next_some _ h
      obtain ⟨rest, beyond⟩ := ih (some last.1)
      rw [follow_next h, returned_cons, List.map_append]
      constructor
      · refine List.pairwise_append.mpr ⟨sorted, rest, fun i mem i' mem' => ?_⟩
        rw [page_ids] at mem
        obtain ⟨e, e_mem, rfl⟩ := List.mem_map.mp mem
        exact lt_of_le_of_lt (below e e_mem) (beyond i' mem' _ rfl)
      · intro i mem c same
        rcases List.mem_append.mp mem with here | later
        · exact higher i here c same
        · have last_higher := higher last.1 (by
            rw [page_ids]
            exact List.mem_map_of_mem last_mem) c same
          exact lt_trans last_higher (beyond i later _ rfl)

/-- What is present after the cursor at the start has been returned once the walk is complete. -/
theorem follow_covers (grows : Grows requests) (complete : Complete (follow cursor requests))
    {i : Id} (follows : ∀ c, cursor = some c → c < i)
    (present : ∀ r, requests.head? = some r → i ∈ r.table.ids) :
    i ∈ (returned (follow cursor requests)).map (·.id) := by
  induction requests generalizing cursor with
  | nil =>
    obtain ⟨page, last, -⟩ := complete
    cases last
  | cons r requests ih =>
    obtain ⟨e, e_mem, rfl⟩ := List.mem_map.mp (present r rfl)
    have listed : e ∈ r.table.after cursor := by
      refine mem_after.mpr ⟨e_mem, ?_⟩
      cases cursor with
      | none => rfl
      | some c => exact (above_some ..).mpr (follows c rfl)
    have on_page : e ∈ (r.table.after cursor).take r.limit →
        e.1 ∈ (r.table.list (r.query cursor)).items.map (·.id) := by
      intro here
      rw [page_ids]
      exact List.mem_map_of_mem here
    cases h : (r.table.list (r.query cursor)).nextCursor with
    | none =>
      have all : (r.table.after cursor).length ≤ r.limit := (next_none (r.query cursor)).mp h
      rw [follow_last h, returned_cons, List.map_append]
      exact List.mem_append_left _ (on_page (by rwa [List.take_of_length_le all]))
    | some next =>
      obtain ⟨left, -, -⟩ := next_some _ h
      rw [follow_next h] at complete ⊢
      rw [returned_cons, List.map_append]
      have split := List.take_append_drop r.limit (r.table.after cursor)
      rw [← split] at listed
      rcases List.mem_append.mp listed with here | later
      · exact List.mem_append_left _ (on_page here)
      · have beyond : next < e.1 := by
          have above := (mem_after.mp (left ▸ later : e ∈ r.table.after (some next))).2
          exact (above_some ..).mp above
        obtain ⟨grown, still⟩ := List.pairwise_cons.mp grows
        refine List.mem_append_right _ (ih still ((complete_next h _).mp complete) ?_ ?_)
        · rintro c ⟨⟩
          exact beyond
        · intro r' first
          exact grown r' (List.mem_of_head? first) (present r rfl)

/- A walk that goes on has got something from every request. -/
theorem follow_goes_on (on : ¬ Complete (follow cursor requests)) :
    requests.length ≤ (returned (follow cursor requests)).length := by
  induction requests generalizing cursor with
  | nil => exact Nat.zero_le _
  | cons r requests ih =>
    cases h : (r.table.list (r.query cursor)).nextCursor with
    | none =>
      rw [follow_last h] at on
      exact absurd ⟨_, rfl, h⟩ on
    | some next =>
      obtain ⟨-, ⟨last, last_mem, -⟩, -⟩ := next_some _ h
      rw [follow_next h] at on ⊢
      have rest := ih fun complete => on ((complete_next h _).mpr complete)
      have some_item : 0 < (r.table.list (r.query cursor)).items.length := by
        rw [list_eq, List.length_map]
        exact List.length_pos_of_mem last_mem
      rw [returned_cons, List.length_append, List.length_cons]
      omega

theorem follow_ids {i : Id} (h : i ∈ (returned (follow cursor requests)).map (·.id)) :
    ∃ r ∈ requests, i ∈ r.table.ids := by
  induction requests generalizing cursor with
  | nil => cases h
  | cons r requests ih =>
    have listed : i ∈ (r.table.list (r.query cursor)).items.map (·.id) → i ∈ r.table.ids := by
      intro mem
      rw [page_ids] at mem
      obtain ⟨e, e_mem, rfl⟩ := List.mem_map.mp mem
      exact List.mem_map_of_mem (mem_after.mp (List.mem_of_mem_take e_mem)).1
    cases next : (r.table.list (r.query cursor)).nextCursor with
    | none =>
      rw [follow_last next, returned_cons, List.map_append] at h
      rcases List.mem_append.mp h with here | none
      · exact ⟨r, List.mem_cons_self .., listed here⟩
      · cases none
    | some c =>
      rw [follow_next next, returned_cons, List.map_append] at h
      rcases List.mem_append.mp h with here | later
      · exact ⟨r, List.mem_cons_self .., listed here⟩
      · obtain ⟨r', mem, there⟩ := ih later
        exact ⟨r', List.mem_cons_of_mem _ mem, there⟩

/-- A walk over finitely many events comes to an end. -/
theorem follow_ends {all : List Id} (within : ∀ r ∈ requests, r.table.ids ⊆ all)
    (enough : all.length < requests.length) : Complete (follow cursor requests) := by
  by_contra on
  have many := follow_goes_on on
  have once : ((returned (follow cursor requests)).map (·.id)).Nodup :=
    (follow_increasing cursor requests).1.imp fun lt => ne_of_lt lt
  have known : (returned (follow cursor requests)).map (·.id) ⊆ all := by
    intro i mem
    obtain ⟨r, r_mem, here⟩ := follow_ids mem
    exact within r r_mem here
  have few := (List.subperm_of_subset once known).length_le
  rw [List.length_map] at few
  omega

/-- In a table that stays as it is, a complete walk returns what follows the cursor, in order. -/
theorem follow_returns {T : EventTable Id} (still : ∀ r ∈ requests, r.table = T)
    (complete : Complete (follow cursor requests)) :
    returned (follow cursor requests) = (T.after cursor).map .fromEvent := by
  induction requests generalizing cursor with
  | nil =>
    obtain ⟨page, last, -⟩ := complete
    cases last
  | cons r requests ih =>
    obtain ⟨here, rest⟩ := List.forall_mem_cons.mp still
    subst here
    have page : (r.table.list (r.query cursor)).items =
        ((r.table.after cursor).take r.limit).map .fromEvent := by rw [list_eq]; rfl
    cases h : (r.table.list (r.query cursor)).nextCursor with
    | none =>
      have all : (r.table.after cursor).length ≤ r.limit := (next_none (r.query cursor)).mp h
      rw [follow_last h, returned_cons, page, List.take_of_length_le all]
      exact List.append_nil _
    | some next =>
      obtain ⟨left, -, -⟩ := next_some _ h
      rw [follow_next h] at complete ⊢
      rw [returned_cons, page, ih rest ((complete_next h _).mp complete), left,
        ← List.map_append]
      exact congrArg _ (List.take_append_drop ..)

end Walk

/-- Following `nextCursor` visits every event once, in the order of the ids, also while the table
grows. -/
theorem pages_visit_once :
    (∀ (T : EventTable Id) (query : ListEventsDto Id),
      (T.list query).items.length ≤ query.limit ∧
      ((T.list query).nextCursor = none ↔ ¬ ∃ e ∈ T.rows, (∀ c, query.cursor = some c → c < e.1) ∧
        ∀ x ∈ (T.list query).items, x.id < e.1)) ∧
    (∀ (T : EventTable Id) (requests : List (Request Id)), (∀ r ∈ requests, r.table = T) →
      (T.rows.length < requests.length → Complete (follow none requests)) ∧
      (Complete (follow none requests) →
        returned (follow none requests) = (ordered Prod.fst T.rows).map .fromEvent)) ∧
    ∀ requests : List (Request Id), Grows requests →
      ((returned (follow none requests)).map (·.id)).Pairwise (· < ·) ∧
      (∀ all : List Id, (∀ r ∈ requests, r.table.ids ⊆ all) → all.length < requests.length →
        Complete (follow none requests)) ∧
      (Complete (follow none requests) → ∀ r, requests.head? = some r →
        r.table.ids ⊆ (returned (follow none requests)).map (·.id)) := by
  refine ⟨fun T query => ⟨?_, next_none_iff query⟩, fun T requests still => ⟨?_, ?_⟩,
    fun requests grows => ⟨?_, ?_, ?_⟩⟩
  · rw [list_eq, List.length_map]
    exact List.length_take_le ..
  · intro enough
    have within : ∀ r ∈ requests, r.table.ids ⊆ T.ids := by
      intro r mem
      rw [still r mem]
      exact fun _ h => h
    refine follow_ends within ?_
    rwa [EventTable.ids, List.length_map]
  · intro complete
    have all : T.rows.filter (above Prod.fst none) = T.rows :=
      List.filter_eq_self.mpr fun _ _ => rfl
    rw [follow_returns still complete, EventTable.after, all]
  · exact (follow_increasing none requests).1
  · exact fun all within enough => follow_ends within enough
  · intro complete r first i present
    refine follow_covers grows complete nofun fun r' first' => ?_
    cases first.symm.trans first'
    exact present

end Overbook.Events
