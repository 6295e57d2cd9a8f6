import Entitlements.Text.Numeral

/-!
Quoted texts of TOML: basic ones with escapes in double quotes, literal ones in single quotes, and
both over several lines between three quotes, where line ends are kept as they are written. Each
reader starts after the opening quotes and gives the text and what follows the closing quotes.
-/

namespace Entitlements.Toml

open Entitlements.Text

/-- Characters that may stand in a text or a comment as they are: no control character but the
tab. -/
def isPlain (c : Char) : Bool := c == '\t' || (0x20 ≤ c.toNat && c.toNat ≠ 0x7F)

/-- The rest after the end of a line. -/
def lineEnd? : List Char → Option (List Char)
  | '\n' :: r => some r
  | '\r' :: '\n' :: r => some r
  | _ => none

/-- The character of an escape, given the characters after the backslash. -/
def escape? : List Char → Option (Char × List Char)
  | 'b' :: r => some ('\x08', r)
  | 'e' :: r => some ('\x1b', r)
  | 't' :: r => some ('\t', r)
  | 'n' :: r => some ('\n', r)
  | 'f' :: r => some ('\x0c', r)
  | 'r' :: r => some ('\r', r)
  | '"' :: r => some ('"', r)
  | '\\' :: r => some ('\\', r)
  | 'x' :: r => code? 2 r
  | 'u' :: r => code? 4 r
  | 'U' :: r => code? 8 r
  | _ => none
where
  /-- The character with a number of so many hexadecimal digits. -/
  code? (n : Nat) (l : List Char) : Option (Char × List Char) :=
    let ds := (l.take n).filterMap hexValue?
    let v := ds.foldl (fun v d => 16 * v + d) 0
    if ds.length = n && (v < 0xD800 || (0xDFFF < v && v ≤ 0x10FFFF)) then
      some (Char.ofNat v, l.drop n)
    else none

/-- A basic text on one line. The fuel bounds the number of characters and escapes. -/
def basic? : Nat → List Char → Option (List Char × List Char)
  | 0, _ => none
  | _, [] => none
  | fuel + 1, c :: r =>
    if c == '"' then some ([], r)
    else if c == '\\' then do
      let (e, r) ← escape? r
      (basic? fuel r).map fun p => (e :: p.1, p.2)
    else if isPlain c then (basic? fuel r).map fun p => (c :: p.1, p.2)
    else none

def literal? : List Char → Option (List Char × List Char)
  | [] => none
  | c :: r =>
    if c == '\x27' then some ([], r)
    else if isPlain c then (literal? r).map fun p => (c :: p.1, p.2)
    else none

/-- The closing quotes of a text over several lines, where one or two more quotes may stand before
them as part of the text. -/
def closing? (quote : Char) (l : List Char) : Option (List Char × List Char) :=
  let n := min 5 (l.takeWhile (· == quote)).length
  if n < 3 then none else some (List.replicate (n - 3) quote, l.drop n)

/-- The rest after blanks, tabs and line ends. -/
def skipBlankLines : List Char → List Char
  | ' ' :: r => skipBlankLines r
  | '\t' :: r => skipBlankLines r
  | '\n' :: r => skipBlankLines r
  | '\r' :: '\n' :: r => skipBlankLines r
  | r => r

/-- A line end after a backslash and blanks: all space up to the next other character vanishes. -/
def continued? (l : List Char) : Option (List Char) :=
  (lineEnd? (l.dropWhile fun c => c == ' ' || c == '\t')).map skipBlankLines

/-- Whether a text over several lines may go on as it is written: with a plain character or with a
line end. -/
def goesOn : List Char → Bool
  | [] => false
  | c :: r => isPlain c || (lineEnd? (c :: r)).isSome

/-- A basic text over several lines. -/
def basicLines? : Nat → List Char → Option (List Char × List Char)
  | 0, _ => none
  | _, [] => none
  | fuel + 1, c :: r =>
    match closing? '"' (c :: r) with
    | some p => some p
    | none =>
      if c == '\\' then
        match continued? r with
        | some r => basicLines? fuel r
        | none => do
          let (e, r) ← escape? r
          (basicLines? fuel r).map fun p => (e :: p.1, p.2)
      else if goesOn (c :: r) then (basicLines? fuel r).map fun p => (c :: p.1, p.2)
      else none

def literalLines? : List Char → Option (List Char × List Char)
  | [] => none
  | c :: r =>
    match closing? '\x27' (c :: r) with
    | some p => some p
    | none => if goesOn (c :: r) then (literalLines? r).map fun p => (c :: p.1, p.2) else none

/-- The text without a line end at its very start. -/
def afterFirstEnd (l : List Char) : List Char := (lineEnd? l).getD l

def shortText? : List Char → Option (String × List Char)
  | '"' :: r => (basic? (r.length + 1) r).map fun p => (String.ofList p.1, p.2)
  | '\x27' :: r => (literal? r).map fun p => (String.ofList p.1, p.2)
  | _ => none

/-- A quoted text of any kind, with its opening quotes. -/
def text? : List Char → Option (String × List Char)
  | '"' :: '"' :: '"' :: r =>
    (basicLines? (r.length + 1) (afterFirstEnd r)).map fun p => (String.ofList p.1, p.2)
  | '\x27' :: '\x27' :: '\x27' :: r =>
    (literalLines? (afterFirstEnd r)).map fun p => (String.ofList p.1, p.2)
  | l => shortText? l

end Entitlements.Toml
