import Entitlements.Toml.Quoted
import Entitlements.Toml.Scalar
import Entitlements.Toml.Table

/-!
The reader of TOML documents: line by line headers, entries and comments, and inside an entry
values that may be nested to a limit. Arrays and inline tables may go over several lines, with
comments and with a comma behind the last item. Each reader gives what it has read and what follows
it.
-/

namespace Entitlements.Toml

open Entitlements.Text

/-- The rest of a line after blanks and tabs. -/
def skipSpace (l : List Char) : List Char := l.dropWhile fun c => c == ' ' || c == '\t'

/-- The rest of a line after a comment, if there is one. -/
def skipComment (l : List Char) : List Char :=
  match l with
  | '#' :: r => r.dropWhile isPlain
  | l => l

/-! ### Keys -/

/-- Whether a character may stand in a key without quotes. -/
def isBare (c : Char) : Bool := isDigit c || c.isAlpha || c == '_' || c == '-'

def keyPart? (l : List Char) : Option (String × List Char) :=
  match shortText? l with
  | some p => some p
  | none =>
    match l.takeWhile isBare with
    | [] => none
    | cs => some (String.ofList cs, l.dropWhile isBare)

/-- How deeply arrays and tables inside an entry may be nested, and how many parts a key may have. -/
def nestingLimit : Nat := 80

/-- A key of at most so many parts, with points between them and white space around each. -/
def parts? : Nat → List Char → Option (List String × List Char)
  | 0, _ => none
  | most + 1, l => do
    let (part, r) ← keyPart? (skipSpace l)
    match skipSpace r with
    | '.' :: r => (parts? most r).map fun p => (part :: p.1, p.2)
    | r => some ([part], r)

/-- A key and what follows it and the white space behind it. -/
def key? (l : List Char) : Option (List String × List Char) := parts? nestingLimit l

/-! ### Values -/

/-- The rest after so many lines at most that hold nothing but space and comments. -/
def skipSomeLines? : Nat → List Char → Option (List Char)
  | 0, _ => none
  | fuel + 1, l =>
    match skipSpace l with
    | '#' :: r =>
      match r.dropWhile isPlain with
      | [] => some []
      | r => (lineEnd? r).bind (skipSomeLines? fuel)
    | r =>
      match lineEnd? r with
      | some r => skipSomeLines? fuel r
      | none => some r

/-- The rest after space, line ends and comments, as they may stand inside an array or an inline
table. -/
def skipLines? (l : List Char) : Option (List Char) := skipSomeLines? (l.length + 1) l

/-- The items of an array after its opening bracket; a comma may stand behind the last one. -/
def items? (value : List Char → Option (Toml × List Char)) :
    Nat → List Char → Option (List Toml × List Char)
  | 0, _ => none
  | fuel + 1, l => do
    match ← skipLines? l with
    | ']' :: r => some ([], r)
    | l =>
      let (v, r) ← value l
      match ← skipLines? r with
      | ',' :: r => (items? value fuel r).map fun p => (v :: p.1, p.2)
      | ']' :: r => some ([v], r)
      | _ => none

/-- A key, an equals sign and a value, with what may be skipped around the sign. -/
def entry? (skip? : List Char → Option (List Char)) (value : List Char → Option (Toml × List Char))
    (l : List Char) : Option (List String × Toml × List Char) := do
  let (ks, r) ← key? l
  let (v, r) ← value (← skip? (← after? '=' (← skip? r)))
  some (ks, v, r)

/-- The entries of an inline table after its opening brace and the entries before; a comma may stand
behind the last one. -/
def inline? (value : List Char → Option (Toml × List Char)) :
    Nat → Entries → List Char → Option (Entries × List Char)
  | 0, _, _ => none
  | fuel + 1, es, l => do
    match ← skipLines? l with
    | '\x7d' :: r => some (es, r)
    | l =>
      let (ks, v, r) ← entry? skipLines? value l
      let es ← es.addUnder? v ks
      match ← skipLines? r with
      | ',' :: r => inline? value fuel es r
      | '\x7d' :: r => some (es, r)
      | _ => none

def single? (l : List Char) : Option (Toml × List Char) :=
  match l with
  | '"' :: _ => (text? l).map fun p => (.text p.1, p.2)
  | '\x27' :: _ => (text? l).map fun p => (.text p.1, p.2)
  | l => scalar? l

/-- A value whose arrays and tables are nested at most so deep. -/
def value? : Nat → List Char → Option (Toml × List Char)
  | 0, l => single? l
  | depth + 1, l =>
    match l with
    | '[' :: r => (items? (value? depth) (r.length + 1) r).map fun p => (.list p.1, p.2)
    | '\x7b' :: r =>
      (inline? (value? depth) (r.length + 1) [] r).map fun p => (.table (entriesToToml p.1), p.2)
    | l => single? l

/-! ### Documents -/

/-- The rest after the end of a line, where only space and a comment may come before. -/
def endOfLine? (l : List Char) : Option (List Char) :=
  match skipComment (skipSpace l) with
  | [] => some []
  | r => lineEnd? r

/-- A header: opens a table, or the next table of an array, and gives its path. -/
def header? (es : Entries) (l : List Char) : Option (List String × Entries × List Char) :=
  let path? (r : List Char) : Option (List String × String × List Char) := do
    let (ks, r) ← key? r
    some (ks, ← ks.getLast?, ← after? ']' r)
  match l with
  | '[' :: r => do
    let (ks, last, r) ← path? r
    some (ks, ← es.within? (·.openNext? last) ks.dropLast, ← after? ']' r)
  | r => do
    let (ks, last, r) ← path? r
    some (ks, ← es.within? (·.openTable? last) ks.dropLast, r)

/-- Reads line after line into the entries of the document; `path` leads to the table that was
opened last. -/
def lines? : Nat → List String → Entries → List Char → Option Entries
  | 0, _, _, _ => none
  | fuel + 1, path, es, l =>
    match skipSpace l with
    | [] => some es
    | '[' :: r => do
      let (path, es, r) ← header? es r
      lines? fuel path es (← endOfLine? r)
    | c :: r =>
      if c == '#' || c == '\n' || c == '\r' then do
        lines? fuel path es (← endOfLine? (c :: r))
      else do
        let (ks, v, r) ← entry? (some <| skipSpace ·) (value? nestingLimit) (c :: r)
        lines? fuel path (← es.within? (·.addUnder? v ks) path) (← endOfLine? r)

def parse? (s : String) : Option (List (String × Toml)) :=
  let l := match s.toList with
    | '\ufeff' :: r => r
    | l => l
  (lines? (l.length + 1) [] [] l).map entriesToToml

end Entitlements.Toml
