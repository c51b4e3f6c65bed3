/-! JSON values. Text and value are not told apart: what `JSON.stringify` writes of a value,
`JSON.parse` reads back as it was. -/
namespace Overbook

inductive Json where
  | null
  | bool (b : Bool)
  | number (q : Rat)
  | string (s : String)
  | array (items : List Json)
  | object (members : List (String × Json))

namespace Json

def readable : Json → Bool
  | null => false
  | _ => true

def member (name : String) : Json → Option Json
  | object members => members.lookup name
  | _ => none

def text : Json → Option String
  | string s => some s
  | _ => none

end Json

end Overbook
