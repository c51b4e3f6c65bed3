import Overbook.JsText

/-! Where a JSON text can be cut: a space of it stands inside a string, so what comes after the
space has an odd number of quotes and is no text itself. -/
namespace Overbook.Js

/- The state of a scan: whether an odd number of quotes that are not escaped has gone by, and
whether a backslash is pending. -/
def scanChar (state : Bool × Bool) (c : Char) : Bool × Bool :=
  if c = '\x5c' then (state.1, !state.2)
  else if c = '\x22' then (xor state.1 (!state.2), false)
  else (state.1, false)

def scan (state : Bool × Bool) (text : List Char) : Bool × Bool := text.foldl scanChar state

def Plain (c : Char) : Prop := c ≠ '\x5c' ∧ c ≠ '\x22'

theorem scanChar_xor (o p : Bool) (c : Char) :
    scanChar (o, p) c = (xor o (scanChar (false, p) c).1, (scanChar (false, p) c).2) := by
  unfold scanChar
  split
  · simp
  · split <;> simp

theorem scan_xor (o p : Bool) (text : List Char) :
    scan (o, p) text = (xor o (scan (false, p) text).1, (scan (false, p) text).2) := by
  induction text generalizing o p with
  | nil => simp [scan]
  | cons c text ih =>
    have first := scanChar_xor o p c
    have rest := ih (scanChar (o, p) c).1 (scanChar (o, p) c).2
    have rest' := ih (scanChar (false, p) c).1 (scanChar (false, p) c).2
    simp only [scan, List.foldl_cons] at rest rest' ⊢
    rw [rest, rest', first]
    simp

theorem scan_append (state : Bool × Bool) (x y : List Char) :
    scan state (x ++ y) = scan (scan state x) y := List.foldl_append ..

theorem scan_plain {text : List Char} (plain : ∀ c ∈ text, Plain c) (o : Bool) :
    scan (o, false) text = (o, false) := by
  induction text with
  | nil => rfl
  | cons c text ih =>
    have first : scanChar (o, false) c = (o, false) := by
      simp [scanChar, (plain c (List.mem_cons_self ..)).1, (plain c (List.mem_cons_self ..)).2]
    have rest := ih fun d hd => plain d (List.mem_cons_of_mem c hd)
    simp only [scan, List.foldl_cons, first] at rest ⊢
    exact rest

/-- No quote in the text counts, wherever it is cut. -/
structure Quiet (text : List Char) : Prop where
  whole : ∀ o, scan (o, false) text = (o, false)
  within : ∀ o x y, text = x ++ y → (scan (o, false) x).1 = o

theorem quiet_plain {text : List Char} (plain : ∀ c ∈ text, Plain c) : Quiet text where
  whole := scan_plain plain
  within o x y split := by
    have part := scan_plain (fun c mem => plain c (split ▸ List.mem_append_left y mem)) o
    rw [part]

theorem Quiet.append {s t : List Char} (hs : Quiet s) (ht : Quiet t) : Quiet (s ++ t) where
  whole o := by rw [scan_append, hs.whole, ht.whole]
  within o x y split := by
    rcases List.append_eq_append_iff.mp split with ⟨x', rfl, rest⟩ | ⟨s', rest, _⟩
    · rw [scan_append, hs.whole]
      exact ht.within o x' y rest
    · exact hs.within o x s' rest

/- A backslash takes the next character along. -/
theorem quiet_escaped (c : Char) {text : List Char} (plain : ∀ d ∈ text, Plain d) :
    Quiet ('\x5c' :: c :: text) := by
  have pair : ∀ o, scan (o, false) ['\x5c', c] = (o, false) := by
    intro o
    simp only [scan, List.foldl_cons, List.foldl_nil, scanChar]
    split <;> simp_all
  have first : Quiet ['\x5c', c] := by
    refine ⟨pair, fun o x y split => ?_⟩
    rcases x with _ | ⟨a, _ | ⟨b, x⟩⟩
    · rfl
    · cases split
      rfl
    · have whole : x = [] := by
        have length := congrArg List.length split
        simp only [List.length_cons, List.length_nil, List.length_append] at length
        exact List.length_eq_zero_iff.mp (by omega)
      subst whole
      cases split
      rw [pair]
  exact first.append (quiet_plain plain)

theorem quiet_escape (a : CodePoint) : Quiet (escape a) := by
  have hex : ∀ d < 16, Plain d.digitChar := by
    intro d lt
    have all : ∀ d < 16, d.digitChar ≠ '\x5c' ∧ d.digitChar ≠ '\x22' := by decide
    exact all d lt
  have unicode : ∀ n < 65536, Quiet (unicodeEscape n) := by
    intro n lt
    refine quiet_escaped 'u' fun c mem => ?_
    simp only [List.mem_cons, List.not_mem_nil, or_false] at mem
    rcases mem with rfl | rfl | rfl | rfl <;> exact hex _ (by omega)
  cases a with
  | surrogate n =>
    have bound := n.isLt
    exact unicode _ (by omega)
  | char c =>
    unfold escape
    dsimp only
    split
    case h_8 no_quote no_slash =>
      split
      · exact unicode _ (by omega)
      · refine quiet_plain fun d mem => ?_
        rw [List.mem_singleton.mp mem]
        exact ⟨no_slash, no_quote⟩
    all_goals exact quiet_escaped _ nofun

/-- Quotes come in pairs, and spaces only between the two of a pair. -/
structure Closed (text : List Char) : Prop where
  whole : scan (false, false) text = (false, false)
  spaces : ∀ x y, text = x ++ ' ' :: y → (scan (false, false) x).1 = true

theorem closed_plain {text : List Char} (plain : ∀ c ∈ text, Plain c) (no_space : ' ' ∉ text) :
    Closed text where
  whole := scan_plain plain false
  spaces x y split := absurd (split ▸ by simp) no_space

theorem Closed.append {s t : List Char} (hs : Closed s) (ht : Closed t) : Closed (s ++ t) where
  whole := by rw [scan_append, hs.whole, ht.whole]
  spaces x y split := by
    rcases List.append_eq_append_iff.mp split with ⟨x', rfl, rest⟩ | ⟨s', rest, tail⟩
    · rw [scan_append, hs.whole]
      exact ht.spaces x' y rest
    · cases s' with
      | nil =>
        rw [List.append_nil] at rest
        have first := ht.spaces [] y tail.symm
        cases first
      | cons c s' =>
        cases tail
        exact hs.spaces x s' rest

theorem closed_quote (s : JsString) : Closed (quote s) := by
  have body : Quiet (s.flatMap escape) := by
    induction s with
    | nil => exact quiet_plain nofun
    | cons a s ih =>
      rw [List.flatMap_cons]
      exact (quiet_escape a).append ih
  have opened : scan (false, false) ['\x22'] = (true, false) := by decide
  have closing : scan (true, false) ['\x22'] = (false, false) := by decide
  have whole : quote s = ['\x22'] ++ (s.flatMap escape ++ ['\x22']) := rfl
  constructor
  · rw [whole, scan_append, opened, scan_append, body.whole, closing]
  · intro x y split
    cases x with
    | nil => cases split
    | cons c x =>
      obtain ⟨rfl, inner⟩ := List.cons.inj split
      rw [← List.singleton_append, scan_append, opened]
      rcases List.append_eq_append_iff.mp inner with ⟨x', _, tail⟩ | ⟨s', rest, _⟩
      · rcases x' with _ | ⟨d, x'⟩
        · cases tail
        · cases x' <;> cases tail
      · exact body.within true x s' rest

theorem closed_text (x : JsNumber) : Closed x.text := by
  have plain : ∀ c, isNumeric c = true → Plain c ∧ c ≠ ' ' := by
    intro c numeric
    refine ⟨⟨?_, ?_⟩, ?_⟩ <;> rintro rfl <;> exact absurd numeric (by decide)
  refine closed_plain (fun c mem => (plain c (x.text_numeric c mem)).1) fun mem => ?_
  exact (plain _ (x.text_numeric _ mem)).2 rfl

theorem closed_char {c : Char} (plain : Plain c) (no_space : c ≠ ' ') : Closed [c] :=
  closed_plain (fun d mem => by rwa [List.mem_singleton.mp mem])
    fun mem => no_space (List.mem_singleton.mp mem).symm

theorem closed_join {texts : List (List Char)} (closed : ∀ t ∈ texts, Closed t) :
    Closed (join texts) := by
  have comma : Closed [','] := closed_char ⟨by decide, by decide⟩ (by decide)
  cases texts with
  | nil => exact closed_plain nofun nofun
  | cons t texts =>
    rw [join_cons]
    refine (closed t (List.mem_cons_self ..)).append ?_
    have rest : ∀ u ∈ texts, Closed u := fun u mem => closed u (List.mem_cons_of_mem t mem)
    clear closed
    induction texts with
    | nil => exact closed_plain nofun nofun
    | cons u texts ih =>
      rw [List.flatMap_cons]
      refine (comma.append (rest u (List.mem_cons_self ..))).append ?_
      exact ih fun w mem => rest w (List.mem_cons_of_mem u mem)

theorem closed_brackets {text : List Char} {first last : Char} (closed : Closed text)
    (h : Closed [first]) (h' : Closed [last]) : Closed (first :: (text ++ [last])) :=
  h.append (closed.append h')

theorem stringify_closed (v : JsValue) : Closed v.stringify := by
  have colon : Closed [':'] := closed_char ⟨by decide, by decide⟩ (by decide)
  induction v using JsValue.induct with
  | null => refine closed_plain ?_ ?_ <;> simp [JsValue.stringify, Plain]
  | bool b => cases b <;> refine closed_plain ?_ ?_ <;> simp [JsValue.stringify, Plain]
  | number x => exact closed_text x
  | string s => exact closed_quote s
  | array items ih =>
    simp only [JsValue.stringify, stringifyItems_eq]
    refine closed_brackets (closed_join ?_) (closed_char ⟨by decide, by decide⟩ (by decide))
      (closed_char ⟨by decide, by decide⟩ (by decide))
    intro t mem
    obtain ⟨v, v_mem, rfl⟩ := List.mem_map.mp mem
    exact ih v v_mem
  | object members ih =>
    simp only [JsValue.stringify, stringifyMembers_eq]
    refine closed_brackets (closed_join ?_) (closed_char ⟨by decide, by decide⟩ (by decide))
      (closed_char ⟨by decide, by decide⟩ (by decide))
    intro t mem
    obtain ⟨m, m_mem, rfl⟩ := List.mem_map.mp mem
    exact (closed_quote m.1).append (colon.append (ih m m_mem))

/-- What stands after a space of a text is not a text. -/
theorem closed_suffix {s t x : List Char} (hs : Closed s) (ht : Closed t) : s ≠ x ++ ' ' :: t := by
  intro split
  have opened := hs.spaces x t split
  have whole := hs.whole
  have space : scanChar (scan (false, false) x) ' ' = (true, false) := by
    simp [scanChar, opened]
  rw [split, scan_append, scan, List.foldl_cons, space] at whole
  change scan (true, false) t = (false, false) at whole
  rw [scan_xor, ht.whole] at whole
  cases whole

/-- Whatever stands before it, a text that follows a space is found again. -/
theorem closed_split {s t x y : List Char} (hs : Closed s) (ht : Closed t)
    (same : x ++ ' ' :: s = y ++ ' ' :: t) : x = y ∧ s = t := by
  rcases List.append_eq_append_iff.mp same with ⟨more, rfl, split⟩ | ⟨more, rfl, split⟩
  · cases more with
    | nil => exact ⟨(List.append_nil x).symm, (List.cons.inj split).2⟩
    | cons c more =>
      obtain ⟨rfl, cut⟩ := List.cons.inj split
      exact absurd cut (closed_suffix hs ht)
  · cases more with
    | nil => exact ⟨List.append_nil y, (List.cons.inj split).2.symm⟩
    | cons c more =>
      obtain ⟨rfl, cut⟩ := List.cons.inj split
      exact absurd cut (closed_suffix ht hs)

end Overbook.Js
