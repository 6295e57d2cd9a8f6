import Entitlements.Json
import Entitlements.Text.Pieces

/-!
Writing JSON: on one line, or indented by two spaces a level. Only quotes, backslashes and control
characters of a text are escaped.
-/

namespace Entitlements.Json

open Entitlements.Text

/-- The integer as a number without point and exponent. -/
def ofInt (n : Int) : Json := .number ⟨n < 0, Nat.toDigits 10 n.natAbs, none, none⟩

def ofString (s : String) : Json := .text (some s)

/-- An object whose members have keys with characters. -/
def ofMembers (l : List (String × Json)) : Json := .object (l.map fun m => (some m.1, m.2))

/-- A character inside a quoted text. -/
def escaped (c : Char) : List Char :=
  if c == '"' then ['\\', '"']
  else if c == '\\' then ['\\', '\\']
  else if c == '\x08' then ['\\', 'b']
  else if c == '\x0c' then ['\\', 'f']
  else if c == '\n' then ['\\', 'n']
  else if c == '\r' then ['\\', 'r']
  else if c == '\t' then ['\\', 't']
  else if c.toNat < 0x20 then
    ['\\', 'u', '0', '0', Nat.digitChar (c.toNat / 16), Nat.digitChar (c.toNat % 16)]
  else [c]

def quoted (s : String) : String := "\"" ++ String.ofList (s.toList.flatMap escaped) ++ "\""

/-- A text without characters is written as an empty one. -/
def quotedContent (s : Option String) : String := quoted (s.getD "")

/-- A number as it was written. -/
def Number.render (n : Number) : String :=
  (if n.negative then "-" else "") ++ String.ofList n.whole
    ++ (match n.fraction with
      | none => ""
      | some ds => "." ++ String.ofList ds)
    ++ (match n.exponent with
      | none => ""
      | some x => "e" ++ decimalInt x)

mutual

/-- A value on one line, without blanks. -/
def compact : Json → String
  | .null => "null"
  | .bool b => if b then "true" else "false"
  | .number n => n.render
  | .text s => quotedContent s
  | .array items => "[" ++ joined "," (compactItems items) ++ "]"
  | .object members => "\x7b" ++ joined "," (compactMembers members) ++ "\x7d"

@[inherit_doc compact]
def compactItems : List Json → List String
  | [] => []
  | v :: vs => compact v :: compactItems vs

@[inherit_doc compact]
def compactMembers : List (Option String × Json) → List String
  | [] => []
  | (k, v) :: ms => (quotedContent k ++ ":" ++ compact v) :: compactMembers ms

end

/-- The lines of a block between its brackets, each after the margin. -/
def block (margin opening closing : String) (lines : List String) : String :=
  if lines.isEmpty then opening ++ closing
  else opening ++ "\n" ++ joined ",\n" (lines.map (margin ++ "  " ++ ·)) ++ "\n" ++ margin ++ closing

mutual

/-- A value over several lines; the lines after the first start with the margin. -/
def pretty (margin : String) : Json → String
  | .array items => block margin "[" "]" (prettyItems (margin ++ "  ") items)
  | .object members => block margin "\x7b" "\x7d" (prettyMembers (margin ++ "  ") members)
  | .null => "null"
  | .bool b => if b then "true" else "false"
  | .number n => n.render
  | .text s => quotedContent s

@[inherit_doc pretty]
def prettyItems (margin : String) : List Json → List String
  | [] => []
  | v :: vs => pretty margin v :: prettyItems margin vs

@[inherit_doc pretty]
def prettyMembers (margin : String) : List (Option String × Json) → List String
  | [] => []
  | (k, v) :: ms => (quotedContent k ++ ": " ++ pretty margin v) :: prettyMembers margin ms

end

end Entitlements.Json
