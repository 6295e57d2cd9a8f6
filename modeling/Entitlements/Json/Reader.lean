import Entitlements.Json

/-!
The strict reader of JSON documents: one value, with nothing but blanks, tabs and line ends around
it. The characters are gathered into tokens by an automaton that looks at each of them once; a stack
of open arrays and objects then puts the tokens together, again looking at each once.
-/

namespace Entitlements.Json

open Entitlements.Text

/-! ### Tokens -/

/-- A smallest meaningful part of a document. -/
inductive Token where
  | openArray
  | closeArray
  | openObject
  | closeObject
  | comma
  | colon
  /-- A literal name or a number, not yet looked at. -/
  | word (chars : List Char)
  /-- The content of a quoted text. -/
  | text (content : Option String)

/-- A unit of a quoted text: a character, or half of a surrogate pair from an escape. -/
inductive Piece where
  | char (c : Char)
  | half (code : Nat)

/-- The characters of a text, if every half has its partner. -/
def content : List Piece → Option (List Char)
  | [] => some []
  | .char c :: r => (content r).map (c :: ·)
  | .half a :: .half b :: r =>
    if 0xD800 ≤ a && a ≤ 0xDBFF && 0xDC00 ≤ b && b ≤ 0xDFFF then
      (content r).map (Char.ofNat (0x10000 + (a - 0xD800) * 0x400 + (b - 0xDC00)) :: ·)
    else none
  | .half _ :: _ => none

/-- Where the automaton stands. What it gathers is kept last first. -/
inductive Mode where
  | between
  | word (chars : List Char)
  | quoted (pieces : List Piece)
  | escaped (pieces : List Piece)
  /-- Inside the four digits of an escape. -/
  | digits (pieces : List Piece) (count value : Nat)

def isSpace (c : Char) : Bool := c == ' ' || c == '\t' || c == '\n' || c == '\r'

/-- The token that a punctuation mark is. -/
def punctuation? (c : Char) : Option Token :=
  if c == '[' then some .openArray
  else if c == ']' then some .closeArray
  else if c == '\x7b' then some .openObject
  else if c == '\x7d' then some .closeObject
  else if c == ',' then some .comma
  else if c == ':' then some .colon
  else none

/-- The character that a one-letter escape stands for. -/
def escape? (c : Char) : Option Char :=
  if c == '"' || c == '\\' || c == '/' then some c
  else if c == 'b' then some '\x08'
  else if c == 'f' then some '\x0c'
  else if c == 'n' then some '\n'
  else if c == 'r' then some '\r'
  else if c == 't' then some '\t'
  else none

/-- The unit of an escape by number. -/
def pieceOf (code : Nat) : Piece :=
  if 0xD800 ≤ code && code ≤ 0xDFFF then .half code else .char (Char.ofNat code)

/-- The tokens of a text, or nothing if it breaks off or holds what no token has. -/
def tokens? : List Char → Mode → Option (List Token)
  | [], .between => some []
  | [], .word cs => some [.word cs.reverse]
  | [], _ => none
  | c :: r, .between =>
    if isSpace c then tokens? r .between
    else if c == '"' then tokens? r (.quoted [])
    else match punctuation? c with
      | some t => (tokens? r .between).map (t :: ·)
      | none => tokens? r (.word [c])
  | c :: r, .word cs =>
    if isSpace c then (tokens? r .between).map (.word cs.reverse :: ·)
    else if c == '"' then (tokens? r (.quoted [])).map (.word cs.reverse :: ·)
    else match punctuation? c with
      | some t => (tokens? r .between).map fun ts => .word cs.reverse :: t :: ts
      | none => tokens? r (.word (c :: cs))
  | c :: r, .quoted ps =>
    if c == '"' then
      (tokens? r .between).map (.text ((content ps.reverse).map String.ofList) :: ·)
    else if c == '\\' then tokens? r (.escaped ps)
    else if c.toNat < 0x20 then none
    else tokens? r (.quoted (.char c :: ps))
  | c :: r, .escaped ps =>
    if c == 'u' then tokens? r (.digits ps 0 0)
    else match escape? c with
      | some e => tokens? r (.quoted (.char e :: ps))
      | none => none
  | c :: r, .digits ps n v =>
    match hexValue? c with
    | none => none
    | some d =>
      if n = 3 then tokens? r (.quoted (pieceOf (16 * v + d) :: ps))
      else tokens? r (.digits ps (n + 1) (16 * v + d))

/-! ### Words -/

/-- The digits of an exponent after its letter, with a sign or without. -/
def exponent? (l : List Char) : Option Int := integer? l

/-- A number: no superfluous zero in front, and a digit on both sides of the point. -/
def number? (l : List Char) : Option Number := do
  let (negative, r) := match l with
    | '-' :: r => (true, r)
    | r => (false, r)
  let (whole, r) := spanDigits r
  if whole.isEmpty || (whole.length ≠ 1 && whole.head? == some '0') then none
  else
    let (fraction, r) ← match r with
      | '.' :: r =>
        let (ds, r) := spanDigits r
        if ds.isEmpty then none else some (some ds, r)
      | r => some (none, r)
    match r with
    | [] => some ⟨negative, whole, fraction, none⟩
    | e :: r =>
      if e == 'e' || e == 'E' then
        (exponent? r).map fun x => ⟨negative, whole, fraction, some x⟩
      else none

def word? (l : List Char) : Option Json :=
  if l = ['n', 'u', 'l', 'l'] then some .null
  else if l = ['t', 'r', 'u', 'e'] then some (.bool true)
  else if l = ['f', 'a', 'l', 's', 'e'] then some (.bool false)
  else (number? l).map .number

/-! ### Values -/

/-- An array or object that is open, with what it holds so far, last first. -/
inductive Frame where
  | array (items : List Json)
  | object (members : List (Option String × Json))
  /-- An object whose next member has its key but not its value. -/
  | member (members : List (Option String × Json)) (key : Option String)

inductive Expect where
  | value
  /-- A value, or the end of the array that was opened just now. -/
  | valueOrEnd
  | key
  /-- A key, or the end of the object that was opened just now. -/
  | keyOrEnd
  | colon
  /-- A comma, or the end of what is open; the end of the document if nothing is. -/
  | more

/-- Puts a value that is complete into the innermost open array or object. -/
def put? (v : Json) : List Frame → Option (List Frame)
  | .array items :: fs => some (.array (v :: items) :: fs)
  | .member members key :: fs => some (.object ((key, v) :: members) :: fs)
  | _ => none

/-- Puts tokens together. The value of the document is at hand once nothing is open. -/
def assemble? : List Token → Expect → List Frame → Option Json → Option Json
  | [], .more, [], done => done
  | [], _, _, _ => none
  | t :: ts, expect, fs, done =>
    let complete (v : Json) (fs : List Frame) : Option Json :=
      match fs with
      | [] => assemble? ts .more [] (some v)
      | fs => (put? v fs).bind fun fs => assemble? ts .more fs done
    let scalar (v : Option Json) : Option Json :=
      match expect with
      | .value | .valueOrEnd => v.bind fun v => complete v fs
      | _ => none
    match t with
    | .word cs => scalar (word? cs)
    | .text s =>
      match expect, fs with
      | .key, .object ms :: fs => assemble? ts .colon (.member ms s :: fs) done
      | .keyOrEnd, .object ms :: fs => assemble? ts .colon (.member ms s :: fs) done
      | _, _ => scalar (some (.text s))
    | .openArray =>
      match expect with
      | .value | .valueOrEnd => assemble? ts .valueOrEnd (.array [] :: fs) done
      | _ => none
    | .openObject =>
      match expect with
      | .value | .valueOrEnd => assemble? ts .keyOrEnd (.object [] :: fs) done
      | _ => none
    | .closeArray =>
      match expect, fs with
      | .valueOrEnd, .array items :: fs => complete (.array items.reverse) fs
      | .more, .array items :: fs => complete (.array items.reverse) fs
      | _, _ => none
    | .closeObject =>
      match expect, fs with
      | .keyOrEnd, .object ms :: fs => complete (.object ms.reverse) fs
      | .more, .object ms :: fs => complete (.object ms.reverse) fs
      | _, _ => none
    | .comma =>
      match expect, fs with
      | .more, .array _ :: _ => assemble? ts .value fs done
      | .more, .object _ :: _ => assemble? ts .key fs done
      | _, _ => none
    | .colon =>
      match expect with
      | .colon => assemble? ts .value fs done
      | _ => none

def parse? (s : String) : Option Json := do
  assemble? (← tokens? s.toList .between) .value [] none

end Entitlements.Json
