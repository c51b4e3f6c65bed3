import Overbook.JsValue
import Mathlib.Tactic.Linarith
import Mathlib.Tactic.Ring

/-! The text of a JSON value determines it, and where in the text it ends. -/
namespace Overbook.Js

/-! Numbers are read back as a mantissa and an exponent. -/

def readExponent : List Char → Int
  | 'e' :: '+' :: digits => Nat.ofDigitChars 10 digits 0
  | 'e' :: '-' :: digits => -Nat.ofDigitChars 10 digits 0
  | _ => 0

def readDecimal (text : List Char) : Nat × Int :=
  let whole := text.takeWhile Char.isDigit
  match text.dropWhile Char.isDigit with
  | '.' :: rest =>
    let fraction := rest.takeWhile Char.isDigit
    (Nat.ofDigitChars 10 (whole ++ fraction) 0,
      readExponent (rest.dropWhile Char.isDigit) - fraction.length)
  | rest => (Nat.ofDigitChars 10 whole 0, readExponent rest)

def Stops (p : Char → Bool) (rest : List Char) : Prop := ∀ c, rest.head? = some c → p c = false

theorem stops_nil (p : Char → Bool) : Stops p [] := nofun

theorem stops_cons {p : Char → Bool} {c : Char} (h : p c = false) (rest : List Char) :
    Stops p (c :: rest) := by
  rintro d ⟨⟩
  exact h

theorem span_stops {p : Char → Bool} {chars rest : List Char} (all : ∀ c ∈ chars, p c = true)
    (stop : Stops p rest) :
    (chars ++ rest).takeWhile p = chars ∧ (chars ++ rest).dropWhile p = rest := by
  rw [List.takeWhile_append_of_pos all, List.dropWhile_append_of_pos all]
  cases rest with
  | nil => simp
  | cons c rest => simp [stop c rfl]

theorem stops_inj {p : Char → Bool} {chars chars' rest rest' : List Char}
    (all : ∀ c ∈ chars, p c = true) (all' : ∀ c ∈ chars', p c = true) (stop : Stops p rest)
    (stop' : Stops p rest') (same : chars ++ rest = chars' ++ rest') :
    chars = chars' ∧ rest = rest' := by
  obtain ⟨take, drop⟩ := span_stops all stop
  obtain ⟨take', drop'⟩ := span_stops all' stop'
  rw [same] at take drop
  exact ⟨take.symm.trans take', drop.symm.trans drop'⟩

section Numbers

variable {digits rest : List Char} {n : Int}

theorem readDecimal_whole (all : ∀ c ∈ digits, c.isDigit = true) (stop : Stops Char.isDigit rest)
    (no_point : rest.head? ≠ some '.') :
    readDecimal (digits ++ rest) = (Nat.ofDigitChars 10 digits 0, readExponent rest) := by
  obtain ⟨take, drop⟩ := span_stops all stop
  unfold readDecimal
  rw [take, drop]
  split
  · exact absurd rfl no_point
  · rfl

theorem readDecimal_point {fraction : List Char} (all : ∀ c ∈ digits, c.isDigit = true)
    (all' : ∀ c ∈ fraction, c.isDigit = true) (stop : Stops Char.isDigit rest) :
    readDecimal (digits ++ '.' :: (fraction ++ rest)) =
      (Nat.ofDigitChars 10 (digits ++ fraction) 0, readExponent rest - fraction.length) := by
  obtain ⟨take, drop⟩ := span_stops all (stops_cons (c := '.') (by decide) (fraction ++ rest))
  obtain ⟨take', drop'⟩ := span_stops all' stop
  unfold readDecimal
  rw [take, drop]
  simp only [take', drop']

/-- What the five forms of a number have in common: read back, it is the digits with as many zeros
as the exponent makes good for. -/
theorem readDecimal_text (all : ∀ c ∈ digits, c.isDigit = true) (some_digit : digits ≠ []) :
    ∃ zeros : Nat, readDecimal (decimalText digits n) =
      (10 ^ zeros * Nat.ofDigitChars 10 digits 0, n - digits.length - zeros) := by
  have none := stops_nil Char.isDigit
  have take_all : ∀ k, ∀ c ∈ digits.take k, c.isDigit = true :=
    fun k c mem => all c (List.mem_of_mem_take mem)
  have drop_all : ∀ k, ∀ c ∈ digits.drop k, c.isDigit = true :=
    fun k c mem => all c (List.mem_of_mem_drop mem)
  unfold decimalText
  dsimp only
  split
  · split
    · -- an integer
      rename_i le
      refine ⟨(n - digits.length).toNat, ?_⟩
      have zeros : ∀ c ∈ digits ++ List.replicate (n - digits.length).toNat '0',
          c.isDigit = true := by
        intro c mem
        rcases List.mem_append.mp mem with digit | zero
        · exact all c digit
        · rw [(List.mem_replicate.mp zero).2]
          decide
      have read := readDecimal_whole zeros none nofun
      rw [List.append_nil] at read
      rw [read, Nat.ofDigitChars_append, Nat.ofDigitChars_replicate_zero]
      refine Prod.ext rfl ?_
      simp only [readExponent]
      omega
    · rename_i lt
      split
      · -- the point stands within the digits
        rename_i pos
        have read := readDecimal_point (take_all n.toNat) (drop_all n.toNat) none
        rw [List.append_nil, List.take_append_drop] at read
        refine ⟨0, ?_⟩
        rw [read, Nat.pow_zero, Nat.one_mul, List.length_drop]
        refine Prod.ext rfl ?_
        simp only [readExponent]
        omega
      · -- zeros stand between the point and the digits
        rename_i nonpos
        have zeros : ∀ c ∈ List.replicate (-n).toNat '0' ++ digits, c.isDigit = true := by
          intro c mem
          rcases List.mem_append.mp mem with zero | digit
          · rw [(List.mem_replicate.mp zero).2]
            decide
          · exact all c digit
        have zero : ∀ c ∈ ['0'], c.isDigit = true := by simp
        have read := readDecimal_point zero zeros none
        rw [List.append_nil] at read
        refine ⟨0, ?_⟩
        rw [show '0' :: '.' :: (List.replicate (-n).toNat '0' ++ digits) =
          ['0'] ++ '.' :: (List.replicate (-n).toNat '0' ++ digits) from rfl, read]
        rw [Nat.ofDigitChars_append, Nat.ofDigitChars_append, Nat.ofDigitChars_replicate_zero]
        refine Prod.ext ?_ ?_
        · simp [Nat.ofDigitChars_cons]
        · simp only [readExponent, List.length_append, List.length_replicate]
          omega
  · -- with an exponent
    rename_i far
    have exponent : readExponent ('e' :: (if n < 0 then '-' else '+') ::
        Nat.toDigits 10 (n - 1).natAbs) = n - 1 := by
      split
      · simp only [readExponent, Nat.ofDigitChars_ten_toDigits]
        omega
      · simp only [readExponent, Nat.ofDigitChars_ten_toDigits]
        omega
    have stop : Stops Char.isDigit ('e' :: (if n < 0 then '-' else '+') ::
        Nat.toDigits 10 (n - 1).natAbs) := stops_cons (by decide) _
    refine ⟨0, ?_⟩
    have positive := List.length_pos_iff.mpr some_digit
    split
    · rename_i one
      have read := readDecimal_whole (take_all 1) stop (by simp)
      rw [List.append_nil, read, exponent, List.take_of_length_le (by omega)]
      refine Prod.ext (by simp) ?_
      dsimp only
      omega
    · have read := readDecimal_point (take_all 1) (drop_all 1) stop
      rw [List.append_assoc, List.cons_append, read, exponent, List.take_append_drop,
        List.length_drop]
      refine Prod.ext (by simp) ?_
      dsimp only
      omega

def isNumeric (c : Char) : Bool := c.isDigit || c == '.' || c == 'e' || c == '+' || c == '-'

theorem digit_numeric {c : Char} (h : c.isDigit = true) : isNumeric c = true := by
  simp [isNumeric, h]

theorem decimalText_numeric (all : ∀ c ∈ digits, c.isDigit = true) :
    ∀ c ∈ decimalText digits n, isNumeric c = true := by
  have zero : isNumeric '0' = true := by decide
  have point : isNumeric '.' = true := by decide
  have e : isNumeric 'e' = true := by decide
  have sign : isNumeric (if n < 0 then '-' else '+') = true := by split <;> decide
  have exponent : ∀ c ∈ Nat.toDigits 10 (n - 1).natAbs, isNumeric c = true :=
    fun c mem => digit_numeric (Nat.isDigit_of_mem_toDigits (by decide) (by decide) mem)
  have own : ∀ c ∈ digits, isNumeric c = true := fun c mem => digit_numeric (all c mem)
  have zeros : ∀ k, ∀ c ∈ List.replicate k '0', isNumeric c = true := by
    intro k c mem
    rw [(List.mem_replicate.mp mem).2]
    exact zero
  have first : ∀ k, ∀ c ∈ digits.take k, isNumeric c = true :=
    fun k c mem => own c (List.mem_of_mem_take mem)
  have last : ∀ k, ∀ c ∈ digits.drop k, isNumeric c = true :=
    fun k c mem => own c (List.mem_of_mem_drop mem)
  unfold decimalText
  dsimp only
  split
  · split
    · exact List.forall_mem_append.mpr ⟨own, zeros _⟩
    · split
      · exact List.forall_mem_append.mpr ⟨first _, List.forall_mem_cons.mpr ⟨point, last _⟩⟩
      · exact List.forall_mem_cons.mpr ⟨zero, List.forall_mem_cons.mpr
          ⟨point, List.forall_mem_append.mpr ⟨zeros _, own⟩⟩⟩
  · refine List.forall_mem_append.mpr ⟨List.forall_mem_append.mpr ⟨first 1, ?_⟩,
      List.forall_mem_cons.mpr ⟨e, List.forall_mem_cons.mpr ⟨sign, exponent⟩⟩⟩
    split
    · exact nofun
    · exact List.forall_mem_cons.mpr ⟨point, last 1⟩

theorem decimalText_head (all : ∀ c ∈ digits, c.isDigit = true) (some_digit : digits ≠ []) :
    ∃ c rest, decimalText digits n = c :: rest ∧ c.isDigit = true := by
  obtain ⟨c, digits, rfl⟩ := List.exists_cons_of_ne_nil some_digit
  have own : c.isDigit = true := all c (List.mem_cons_self ..)
  unfold decimalText
  dsimp only
  split
  · split
    · exact ⟨c, _, rfl, own⟩
    · split
      · rename_i pos
        obtain ⟨k, hk⟩ := Nat.exists_eq_succ_of_ne_zero (n := n.toNat) (by omega)
        rw [hk]
        exact ⟨c, _, rfl, own⟩
      · exact ⟨'0', _, rfl, by decide⟩
  · exact ⟨c, _, rfl, own⟩

theorem shortest_inj {s s' : Nat} (last : s % 10 ≠ 0) (last' : s' % 10 ≠ 0) {zeros zeros' : Nat}
    (same : 10 ^ zeros * s = 10 ^ zeros' * s') : zeros = zeros' ∧ s = s' := by
  induction zeros generalizing zeros' with
  | zero =>
    cases zeros' with
    | zero => simpa using same
    | succ zeros' =>
      rw [Nat.pow_zero, Nat.one_mul, Nat.pow_succ] at same
      have multiple : s = 10 * (10 ^ zeros' * s') := by rw [same]; ring
      omega
  | succ zeros ih =>
    cases zeros' with
    | zero =>
      rw [Nat.pow_zero, Nat.one_mul, Nat.pow_succ] at same
      have multiple : s' = 10 * (10 ^ zeros * s) := by rw [← same]; ring
      omega
    | succ zeros' =>
      have less : 10 ^ zeros * s = 10 ^ zeros' * s' := by
        rw [Nat.pow_succ, Nat.pow_succ] at same
        linarith
      obtain ⟨rfl, rfl⟩ := ih less
      exact ⟨rfl, rfl⟩

end Numbers

namespace Decimal

theorem digitChars_digit (d : Decimal) : ∀ c ∈ d.digitChars, c.isDigit = true :=
  fun _ mem => Nat.isDigit_of_mem_toDigits (by decide) (by decide) mem

theorem digitChars_ne_nil (d : Decimal) : d.digitChars ≠ [] := Nat.toDigits_ne_nil

theorem unsigned_head (d : Decimal) : ∃ c rest, d.unsigned = c :: rest ∧ c.isDigit = true :=
  decimalText_head d.digitChars_digit d.digitChars_ne_nil

theorem readDecimal_unsigned (d : Decimal) : ∃ zeros : Nat,
    readDecimal d.unsigned = (10 ^ zeros * d.digits, d.exponent - zeros) := by
  obtain ⟨zeros, read⟩ := readDecimal_text (n := d.digitChars.length + d.exponent)
    d.digitChars_digit d.digitChars_ne_nil
  refine ⟨zeros, read.trans (Prod.ext ?_ ?_)⟩
  · simp only [digitChars, Nat.ofDigitChars_ten_toDigits]
  · dsimp only
    omega

theorem unsigned_inj {d d' : Decimal} (h : d.unsigned = d'.unsigned) :
    d.digits = d'.digits ∧ d.exponent = d'.exponent := by
  obtain ⟨zeros, read⟩ := d.readDecimal_unsigned
  obtain ⟨zeros', read'⟩ := d'.readDecimal_unsigned
  rw [h, read', Prod.mk.injEq] at read
  obtain ⟨rfl, digits⟩ := shortest_inj d'.shortest d.shortest read.1
  exact ⟨digits.symm, by omega⟩

theorem text_inj {d d' : Decimal} (h : d.text = d'.text) : d = d' := by
  obtain ⟨c, rest, head, digit⟩ := d.unsigned_head
  obtain ⟨c', rest', head', digit'⟩ := d'.unsigned_head
  have sign : d.negative = d'.negative ∧ d.unsigned = d'.unsigned := by
    unfold text at h
    cases neg : d.negative <;> cases neg' : d'.negative <;>
      simp only [neg, neg', Bool.false_eq_true, if_false, if_true] at h
    · exact ⟨rfl, h⟩
    · rw [head] at h
      cases h
      exact absurd digit (by decide)
    · rw [head'] at h
      cases h
      exact absurd digit' (by decide)
    · exact ⟨rfl, (List.cons.inj h).2⟩
  obtain ⟨digits, exponent⟩ := unsigned_inj sign.2
  cases d
  cases d'
  cases sign.1
  cases digits
  cases exponent
  rfl

theorem text_numeric (d : Decimal) : ∀ c ∈ d.text, isNumeric c = true := by
  have unsigned := decimalText_numeric (n := d.digitChars.length + d.exponent) d.digitChars_digit
  unfold text
  split
  · exact List.forall_mem_cons.mpr ⟨by decide, unsigned⟩
  · exact unsigned

end Decimal

namespace JsNumber

theorem zero_ne_decimal (d : Decimal) : zero.text ≠ (decimal d).text := by
  intro same
  change ['0'] = d.text at same
  unfold Decimal.text at same
  split at same
  · cases same
  · obtain ⟨zeros, read⟩ := d.readDecimal_unsigned
    have zero : readDecimal ['0'] = (0, 0) := by decide
    rw [← same, zero, Prod.mk.injEq] at read
    have digits := d.shortest
    rcases Nat.mul_eq_zero.mp read.1.symm with power | none
    · exact absurd power (Nat.pow_pos (by decide)).ne'
    · rw [none] at digits
      exact digits rfl

theorem text_inj {x y : JsNumber} (h : x.text = y.text) : x = y := by
  cases x with
  | zero => cases y with
    | zero => rfl
    | decimal d => exact absurd h (zero_ne_decimal d)
  | decimal d => cases y with
    | zero => exact absurd h.symm (zero_ne_decimal d)
    | decimal d' => rw [Decimal.text_inj h]

theorem text_numeric (x : JsNumber) : ∀ c ∈ x.text, isNumeric c = true := by
  cases x with
  | zero => exact List.forall_mem_cons.mpr ⟨by decide, nofun⟩
  | decimal d => exact d.text_numeric

theorem text_head (x : JsNumber) : ∃ c rest, x.text = c :: rest ∧ isNumeric c = true := by
  have all := x.text_numeric
  cases text : x.text with
  | nil =>
    cases x with
    | zero => cases text
    | decimal d =>
      obtain ⟨c, rest, head, _⟩ := d.unsigned_head
      change d.text = [] at text
      unfold Decimal.text at text
      split at text
      · cases text
      · rw [head] at text
        cases text
  | cons c rest =>
    rw [text] at all
    exact ⟨c, rest, rfl, all c (List.mem_cons_self ..)⟩

end JsNumber

/-! Strings end at the first quote that is not escaped. -/

def hexValue (c : Char) : Nat := if c.isDigit then c.toNat - 48 else c.toNat - 87

theorem hexValue_digitChar : ∀ d < 16, hexValue d.digitChar = d := by decide

def hexCode (a b c d : Char) : Nat :=
  4096 * hexValue a + 256 * hexValue b + 16 * hexValue c + hexValue d

def readEscape : List Char → Option (CodePoint × List Char)
  | '\x5c' :: 'u' :: a :: b :: c :: d :: rest =>
    let n := hexCode a b c d
    some (if n < 0xD800 then .char (Char.ofNat n) else .surrogate (Fin.ofNat 2048 (n - 0xD800)),
      rest)
  | '\x5c' :: 'b' :: rest => some (.char '\x08', rest)
  | '\x5c' :: 't' :: rest => some (.char '\x09', rest)
  | '\x5c' :: 'n' :: rest => some (.char '\x0a', rest)
  | '\x5c' :: 'f' :: rest => some (.char '\x0c', rest)
  | '\x5c' :: 'r' :: rest => some (.char '\x0d', rest)
  | '\x5c' :: c :: rest => some (.char c, rest)
  | c :: rest => some (.char c, rest)
  | [] => none

theorem hexCode_digits {n : Nat} (h : n < 65536) : hexCode (n / 4096).digitChar
    (n / 256 % 16).digitChar (n / 16 % 16).digitChar (n % 16).digitChar = n := by
  unfold hexCode
  rw [hexValue_digitChar _ (by omega), hexValue_digitChar _ (by omega),
    hexValue_digitChar _ (by omega), hexValue_digitChar _ (by omega)]
  omega

theorem readEscape_unicode {n : Nat} (h : n < 65536) (rest : List Char) :
    readEscape (unicodeEscape n ++ rest) = some (if n < 0xD800 then .char (Char.ofNat n)
      else .surrogate (Fin.ofNat 2048 (n - 0xD800)), rest) := by
  have code := hexCode_digits h
  simp only [unicodeEscape, List.cons_append, List.nil_append, readEscape, code]

theorem readEscape_escape (a : CodePoint) (rest : List Char) :
    readEscape (escape a ++ rest) = some (a, rest) := by
  cases a with
  | surrogate n =>
    have bound := n.isLt
    rw [escape, readEscape_unicode (by omega), if_neg (by omega)]
    simp
  | char c =>
    unfold escape
    dsimp only
    split
    · rfl
    · rfl
    · rfl
    · rfl
    · rfl
    · rfl
    · rfl
    · split
      · rename_i low
        rw [readEscape_unicode (by omega), if_pos (by omega), Char.ofNat_toNat]
      · rename_i no_slash _
        simp only [List.cons_append, List.nil_append]
        unfold readEscape
        split <;> simp_all

theorem escape_head (a : CodePoint) : ∃ c rest, escape a = c :: rest ∧ c ≠ '\x22' := by
  cases a with
  | surrogate n => exact ⟨_, _, rfl, by decide⟩
  | char c =>
    unfold escape
    dsimp only
    split
    case h_6 => exact ⟨_, _, rfl, by decide⟩
    case h_8 no_quote _ =>
      split
      · exact ⟨_, _, rfl, by decide⟩
      · exact ⟨_, _, rfl, no_quote⟩
    all_goals exact ⟨_, _, rfl, by decide⟩

theorem quote_inj {s s' : JsString} {rest rest' : List Char}
    (same : quote s ++ rest = quote s' ++ rest') : s = s' ∧ rest = rest' := by
  have body : ∀ s s' : JsString, s.flatMap escape ++ '\x22' :: rest =
      s'.flatMap escape ++ '\x22' :: rest' → s = s' ∧ rest = rest' := by
    intro s
    induction s with
    | nil =>
      intro s' same
      cases s' with
      | nil => simpa using same
      | cons b s' =>
        obtain ⟨c, tail, head, ne⟩ := escape_head b
        rw [List.flatMap_cons, head] at same
        exact absurd (List.cons.inj same).1.symm ne
    | cons a s ih =>
      intro s' same
      cases s' with
      | nil =>
        obtain ⟨c, tail, head, ne⟩ := escape_head a
        rw [List.flatMap_cons, head] at same
        exact absurd (List.cons.inj same).1 ne
      | cons b s' =>
        rw [List.flatMap_cons, List.flatMap_cons, List.append_assoc, List.append_assoc] at same
        have read := congrArg readEscape same
        rw [readEscape_escape, readEscape_escape, Option.some.injEq, Prod.mk.injEq] at read
        obtain ⟨rfl, others⟩ := ih s' read.2
        exact ⟨by rw [read.1], others⟩
  unfold quote at same
  exact body s s' (by simpa using same)

/-! Values. -/

@[elab_as_elim]
theorem JsValue.induct {P : JsValue → Prop} (null : P .null) (bool : ∀ b, P (.bool b))
    (number : ∀ x, P (.number x)) (string : ∀ s, P (.string s))
    (array : ∀ items, (∀ v ∈ items, P v) → P (.array items))
    (object : ∀ members : List (JsString × JsValue), (∀ m ∈ members, P m.2) → P (.object members))
    (v : JsValue) : P v := by
  refine @JsValue.rec P (fun items => ∀ v ∈ items, P v) (fun members => ∀ m ∈ members, P m.2)
    (fun m => P m.2) null bool number string array object ?_ ?_ ?_ ?_ ?_ v
  · exact nofun
  · exact fun _ _ first rest => List.forall_mem_cons.mpr ⟨first, rest⟩
  · exact nofun
  · exact fun _ _ first rest => List.forall_mem_cons.mpr ⟨first, rest⟩
  · exact fun _ _ value => value

theorem stringifyItems_eq (items : List JsValue) :
    JsValue.stringifyItems items = items.map JsValue.stringify := by
  induction items with
  | nil => rfl
  | cons v items ih => simp [JsValue.stringifyItems, ih]

theorem stringifyMembers_eq (members : List (JsString × JsValue)) :
    JsValue.stringifyMembers members = members.map fun m => memberText m.1 m.2.stringify := by
  induction members with
  | nil => rfl
  | cons m members ih => simp [JsValue.stringifyMembers, ih]

theorem join_cons (text : List Char) (texts : List (List Char)) :
    join (text :: texts) = text ++ texts.flatMap fun t => ',' :: t := by
  induction texts generalizing text with
  | nil => simp [join, List.intercalate]
  | cons t texts ih =>
    have rest := ih t
    simp only [join, List.intercalate, List.intersperse_cons_cons, List.flatten_cons] at rest ⊢
    rw [rest, List.flatMap_cons]
    simp

/-- A text that is told apart from others wherever it ends. -/
def Decodes {α : Type} (f : α → List Char) (a : α) : Prop :=
  ∀ b rest rest', Stops isNumeric rest → Stops isNumeric rest' → f a ++ rest = f b ++ rest' →
    a = b ∧ rest = rest'

section Join

variable {α : Type} {f : α → List Char} {close : Char}

theorem joined_stops (numeric : isNumeric close = false) (texts : List (List Char))
    (rest : List Char) :
    Stops isNumeric (texts.flatMap (fun t => ',' :: t) ++ close :: rest) := by
  cases texts with
  | nil => exact stops_cons numeric rest
  | cons t texts => exact stops_cons (by decide) _

theorem tail_inj (comma : close ≠ ',') (numeric : isNumeric close = false) {l l' : List α}
    (decodes : ∀ a ∈ l, Decodes f a) {rest rest' : List Char}
    (same : (l.map f).flatMap (fun t => ',' :: t) ++ close :: rest =
      (l'.map f).flatMap (fun t => ',' :: t) ++ close :: rest') : l = l' ∧ rest = rest' := by
  induction l generalizing l' with
  | nil =>
    cases l' with
    | nil => simpa using same
    | cons b l' => exact absurd (List.cons.inj same).1 comma
  | cons a l ih =>
    cases l' with
    | nil => exact absurd (List.cons.inj same).1.symm comma
    | cons b l' =>
      simp only [List.map_cons, List.flatMap_cons, List.cons_append, List.append_assoc,
        List.cons.injEq, true_and] at same
      obtain ⟨rfl, tails⟩ := decodes a (List.mem_cons_self ..) b _ _ (joined_stops numeric _ _)
        (joined_stops numeric _ _) same
      obtain ⟨rfl, rests⟩ := ih (fun x hx => decodes x (List.mem_cons_of_mem a hx)) tails
      exact ⟨rfl, rests⟩

/-- A list between brackets is read back item by item, when no item starts with the bracket that
closes the list. -/
theorem join_inj (comma : close ≠ ',') (numeric : isNumeric close = false)
    (opens : ∀ a, ∃ c rest, f a = c :: rest ∧ c ≠ close) {l l' : List α}
    (decodes : ∀ a ∈ l, Decodes f a) {rest rest' : List Char}
    (same : join (l.map f) ++ close :: rest = join (l'.map f) ++ close :: rest') :
    l = l' ∧ rest = rest' := by
  cases l with
  | nil =>
    cases l' with
    | nil => simpa [join, List.intercalate] using same
    | cons b l' =>
      obtain ⟨c, tail, head, ne⟩ := opens b
      rw [List.map_cons, join_cons, head] at same
      exact absurd (List.cons.inj same).1.symm ne
  | cons a l =>
    cases l' with
    | nil =>
      obtain ⟨c, tail, head, ne⟩ := opens a
      rw [List.map_cons, join_cons, head] at same
      exact absurd (List.cons.inj same).1 ne
    | cons b l' =>
      rw [List.map_cons, List.map_cons, join_cons, join_cons, List.append_assoc,
        List.append_assoc] at same
      obtain ⟨rfl, tails⟩ := decodes a (List.mem_cons_self ..) b _ _ (joined_stops numeric _ _)
        (joined_stops numeric _ _) same
      obtain ⟨rfl, rests⟩ := tail_inj comma numeric
        (fun x hx => decodes x (List.mem_cons_of_mem a hx)) tails
      exact ⟨rfl, rests⟩

end Join

def sortOf (c : Char) : Nat :=
  match c with
  | 'n' => 0
  | 't' => 1
  | 'f' => 2
  | '\x22' => 3
  | '[' => 4
  | '\x7b' => 5
  | c => if isNumeric c then 6 else 7

def JsValue.sort : JsValue → Nat
  | .null => 0
  | .bool true => 1
  | .bool false => 2
  | .string _ => 3
  | .array _ => 4
  | .object _ => 5
  | .number _ => 6

theorem sortOf_numeric {c : Char} (h : isNumeric c = true) : sortOf c = 6 := by
  unfold sortOf
  split
  case h_7 => simp [h]
  all_goals exact absurd h (by decide)

theorem stringify_head (v : JsValue) : ∃ c rest, v.stringify = c :: rest ∧ sortOf c = v.sort := by
  cases v with
  | null => exact ⟨_, _, rfl, rfl⟩
  | bool b => cases b <;> exact ⟨_, _, rfl, rfl⟩
  | number x =>
    obtain ⟨c, rest, head, numeric⟩ := x.text_head
    exact ⟨c, rest, head, sortOf_numeric numeric⟩
  | string s => exact ⟨_, _, rfl, rfl⟩
  | array items => exact ⟨_, _, rfl, rfl⟩
  | object members => exact ⟨_, _, rfl, rfl⟩

theorem sort_lt (v : JsValue) : v.sort < 7 := by
  cases v with
  | bool b => cases b <;> decide
  | _ => simp [JsValue.sort]

theorem same_sort {v w : JsValue} {rest rest' : List Char}
    (same : v.stringify ++ rest = w.stringify ++ rest') : v.sort = w.sort := by
  obtain ⟨c, tail, head, begins⟩ := stringify_head v
  obtain ⟨c', tail', head', begins'⟩ := stringify_head w
  rw [head, head'] at same
  rw [← begins, ← begins', (List.cons.inj same).1]

theorem array_inj {items items' : List JsValue} (decodes : ∀ v ∈ items, Decodes JsValue.stringify v)
    {rest rest' : List Char}
    (same : (JsValue.array items).stringify ++ rest = (JsValue.array items').stringify ++ rest') :
    items = items' ∧ rest = rest' := by
  have opens : ∀ v : JsValue, ∃ c rest, v.stringify = c :: rest ∧ c ≠ ']' := by
    intro v
    obtain ⟨c, rest, head, begins⟩ := stringify_head v
    refine ⟨c, rest, head, ?_⟩
    rintro rfl
    exact absurd begins.symm (sort_lt v).ne
  simp only [JsValue.stringify, stringifyItems_eq, List.cons_append, List.append_assoc,
    List.cons.injEq, true_and, List.nil_append] at same
  exact join_inj (by decide) (by decide) opens decodes same

theorem object_inj {members members' : List (JsString × JsValue)}
    (decodes : ∀ m ∈ members, Decodes JsValue.stringify m.2) {rest rest' : List Char}
    (same : (JsValue.object members).stringify ++ rest =
      (JsValue.object members').stringify ++ rest') : members = members' ∧ rest = rest' := by
  have each : ∀ m ∈ members,
      Decodes (fun m : JsString × JsValue => memberText m.1 m.2.stringify) m := by
    intro m mem n rest rest' stop stop' same
    simp only [memberText, List.append_assoc, List.cons_append] at same
    obtain ⟨key, values⟩ := quote_inj same
    obtain ⟨value, rests⟩ := decodes m mem n.2 rest rest' stop stop' (List.cons.inj values).2
    exact ⟨Prod.ext key value, rests⟩
  have opens : ∀ m : JsString × JsValue, ∃ c rest,
      memberText m.1 m.2.stringify = c :: rest ∧ c ≠ '\x7d' :=
    fun m => ⟨_, _, rfl, by decide⟩
  simp only [JsValue.stringify, stringifyMembers_eq, List.cons_append, List.append_assoc,
    List.cons.injEq, true_and, List.nil_append] at same
  exact join_inj (by decide) (by decide) opens each same

/-- Values of one text are one value, and their texts end in one place. -/
theorem stringify_decodes (v : JsValue) : Decodes JsValue.stringify v := by
  induction v using JsValue.induct with
  | null =>
    intro w rest rest' _ _ same
    have sorts := same_sort same
    cases w with
    | null => exact ⟨rfl, List.append_cancel_left same⟩
    | bool b => cases b <;> cases sorts
    | _ => cases sorts
  | bool b =>
    intro w rest rest' _ _ same
    have sorts := same_sort same
    cases w with
    | bool b' =>
      have flag : b = b' := by cases b <;> cases b' <;> first | rfl | cases sorts
      subst flag
      exact ⟨rfl, List.append_cancel_left same⟩
    | _ => cases b <;> cases sorts
  | number x =>
    intro w rest rest' stop stop' same
    have sorts := same_sort same
    cases w with
    | number y =>
      obtain ⟨text, rests⟩ := stops_inj x.text_numeric y.text_numeric stop stop' same
      exact ⟨by rw [JsNumber.text_inj text], rests⟩
    | bool b => cases b <;> cases sorts
    | _ => cases sorts
  | string s =>
    intro w rest rest' _ _ same
    have sorts := same_sort same
    cases w with
    | string s' =>
      obtain ⟨rfl, rests⟩ := quote_inj same
      exact ⟨rfl, rests⟩
    | bool b => cases b <;> cases sorts
    | _ => cases sorts
  | array items ih =>
    intro w rest rest' _ _ same
    have sorts := same_sort same
    cases w with
    | array items' =>
      obtain ⟨rfl, rests⟩ := array_inj ih same
      exact ⟨rfl, rests⟩
    | bool b => cases b <;> cases sorts
    | _ => cases sorts
  | object members ih =>
    intro w rest rest' _ _ same
    have sorts := same_sort same
    cases w with
    | object members' =>
      obtain ⟨rfl, rests⟩ := object_inj ih same
      exact ⟨rfl, rests⟩
    | bool b => cases b <;> cases sorts
    | _ => cases sorts

theorem stringify_inj {v w : JsValue} (same : v.stringify = w.stringify) : v = w := by
  have whole : v.stringify ++ [] = w.stringify ++ [] := by rw [same]
  exact (stringify_decodes v w [] [] (stops_nil _) (stops_nil _) whole).1

end Overbook.Js
