import Entitlements.Text.Numeral

/-!
JSON documents. A number keeps the form in which it was written, because an integer and a number
with a fraction or an exponent are told apart even where they are equal. A text whose escapes leave
half of a surrogate pair alone has no characters; it may stand where a text is not looked at.
-/

namespace Entitlements

namespace Json

/-- A number as it is written. -/
structure Number where
  negative : Bool
  /-- The digits before the point. -/
  whole : List Char
  /-- The digits after the point, if there is one. -/
  fraction : Option (List Char)
  exponent : Option Int
deriving DecidableEq

/-- The integer that is written without point and exponent. Minus zero is none. -/
def Number.integer? (n : Number) : Option Int :=
  if n.fraction.isSome || n.exponent.isSome then none
  else
    let v := Text.ofDigits n.whole
    if n.negative then (if v = 0 then none else some (- Int.ofNat v)) else some v

end Json

/-- A JSON value. Objects keep their members as written, repeated keys included. -/
inductive Json where
  | null
  | bool (b : Bool)
  | number (n : Json.Number)
  | text (s : Option String)
  | array (items : List Json)
  | object (members : List (Option String × Json))

namespace Json

/-- The value of the last member of an object with a key. -/
def member? (key : String) (members : List (Option String × Json)) : Option Json :=
  (members.reverse.find? fun m => m.1 == some key).map (·.2)

def occurrences (key : String) (members : List (Option String × Json)) : Nat :=
  members.countP fun m => m.1 == some key

end Json

end Entitlements
