import Mathlib.Data.Rat.Defs
import Mathlib.Data.List.Basic

/-! JSON values as JavaScript has them, with their texts: `JSON.stringify`, `Number::toString` and
the quoting of strings. -/
namespace Overbook.Js

/-- What a string is made of: a character, or half of a surrogate pair on its own. -/
inductive CodePoint where
  | char (c : Char)
  | surrogate (n : Fin 2048)
  deriving DecidableEq

abbrev JsString := List CodePoint

/-- A finite number other than zero, told by its shortest decimal, `digits * 10 ^ exponent`. -/
structure Decimal where
  negative : Bool
  digits : Nat
  exponent : Int
  shortest : digits % 10 ≠ 0
  deriving DecidableEq

/- A finite number. The two zeros are one. -/
inductive JsNumber where
  | zero
  | decimal (d : Decimal)
  deriving DecidableEq

inductive JsValue where
  | null
  | bool (b : Bool)
  | number (x : JsNumber)
  | string (s : JsString)
  | array (items : List JsValue)
  | object (members : List (JsString × JsValue))

/-! Numbers. -/

/- The `k` digits of a number whose point stands after the `n`-th one. -/
def decimalText (digits : List Char) (n : Int) : List Char :=
  let k := digits.length
  if -5 ≤ n ∧ n ≤ 21 then
    if k ≤ n then digits ++ List.replicate (n - k).toNat '0'
    else if 0 < n then digits.take n.toNat ++ '.' :: digits.drop n.toNat
    else '0' :: '.' :: (List.replicate (-n).toNat '0' ++ digits)
  else
    let exponentSign := if n < 0 then '-' else '+'
    digits.take 1 ++ (if k = 1 then [] else '.' :: digits.drop 1) ++
      'e' :: exponentSign :: Nat.toDigits 10 (n - 1).natAbs

namespace Decimal

def digitChars (d : Decimal) : List Char := Nat.toDigits 10 d.digits

def unsigned (d : Decimal) : List Char :=
  decimalText d.digitChars (d.digitChars.length + d.exponent)

def text (d : Decimal) : List Char := if d.negative then '-' :: d.unsigned else d.unsigned

def value (d : Decimal) : Rat := (if d.negative then -1 else 1) * d.digits * (10 : Rat) ^ d.exponent

end Decimal

namespace JsNumber

def text : JsNumber → List Char
  | zero => ['0']
  | decimal d => d.text

def value : JsNumber → Rat
  | zero => 0
  | decimal d => d.value

end JsNumber

/-! Strings. -/

def unicodeEscape (n : Nat) : List Char :=
  ['\x5c', 'u', (n / 4096).digitChar, (n / 256 % 16).digitChar, (n / 16 % 16).digitChar,
    (n % 16).digitChar]

def escape : CodePoint → List Char
  | .surrogate n => unicodeEscape (0xD800 + n)
  | .char c =>
    match c with
    | '\x08' => ['\x5c', 'b']
    | '\x09' => ['\x5c', 't']
    | '\x0a' => ['\x5c', 'n']
    | '\x0c' => ['\x5c', 'f']
    | '\x0d' => ['\x5c', 'r']
    | '\x22' => ['\x5c', '\x22']
    | '\x5c' => ['\x5c', '\x5c']
    | c => if c.toNat < 32 then unicodeEscape c.toNat else [c]

/- `QuoteJSONString`. -/
def quote (s : JsString) : List Char := '\x22' :: (s.flatMap escape ++ ['\x22'])

/-! Values. -/

/- `join(',')`. -/
def join (texts : List (List Char)) : List Char := [','].intercalate texts

def memberText (key : JsString) (value : List Char) : List Char := quote key ++ ':' :: value

mutual

def JsValue.stringify : JsValue → List Char
  | .null => ['n', 'u', 'l', 'l']
  | .bool true => ['t', 'r', 'u', 'e']
  | .bool false => ['f', 'a', 'l', 's', 'e']
  | .number x => x.text
  | .string s => quote s
  | .array items => '[' :: (join (JsValue.stringifyItems items) ++ [']'])
  | .object members => '\x7b' :: (join (JsValue.stringifyMembers members) ++ ['\x7d'])

def JsValue.stringifyItems : List JsValue → List (List Char)
  | [] => []
  | v :: items => v.stringify :: JsValue.stringifyItems items

def JsValue.stringifyMembers : List (JsString × JsValue) → List (List Char)
  | [] => []
  | (key, v) :: members => memberText key v.stringify :: JsValue.stringifyMembers members

end

end Overbook.Js
