import Entitlements.Instant.Calendar
import Entitlements.Toml

/-!
Scalars of TOML that are written without quotes: truth values, integers in four bases, real numbers,
dates and times of day. Digits may be separated by single underscores. A moment is brought to one
form, with a capital T between date and time and no superfluous zeros at the end of a fraction.
-/

namespace Entitlements.Toml

open Entitlements.Text

/-! ### Numbers -/

/-- Digits of a kind without the single underscores between them. -/
def joinedDigits? (isOne : Char → Bool) : List Char → Option (List Char)
  | [] => none
  | [c] => if isOne c then some [c] else none
  | c :: '_' :: r => if isOne c then (joinedDigits? isOne r).map (c :: ·) else none
  | c :: r => if isOne c then (joinedDigits? isOne r).map (c :: ·) else none

/-- Decimal digits without a superfluous zero in front. -/
def wholeDigits? (l : List Char) : Option (List Char) :=
  match joinedDigits? isDigit l with
  | some ('0' :: _ :: _) => none
  | r => r

def sign (l : List Char) : Bool × List Char :=
  match l with
  | '-' :: r => (true, r)
  | '+' :: r => (false, r)
  | r => (false, r)

/-- The number of digits in a base. -/
def inBase? (base : Nat) (l : List Char) : Option Int :=
  let digit? (c : Char) := (hexValue? c).filter (· < base)
  (joinedDigits? (fun c => (digit? c).isSome) l).map fun ds =>
    ds.foldl (fun n c => base * n + (digit? c).getD 0) 0

def integer? (l : List Char) : Option Int :=
  let n : Option Int := match l with
    | '0' :: 'x' :: r => inBase? 16 r
    | '0' :: 'o' :: r => inBase? 8 r
    | '0' :: 'b' :: r => inBase? 2 r
    | l =>
      let (negative, r) := sign l
      (wholeDigits? r).map fun ds =>
        if negative then - Int.ofNat (ofDigits ds) else Int.ofNat (ofDigits ds)
  n.filter fits64

/-- An exponent after its letter. -/
def exponent? (l : List Char) : Option Int :=
  let (negative, r) := sign l
  (joinedDigits? isDigit r).map fun ds =>
    if negative then - Int.ofNat (ofDigits ds) else Int.ofNat (ofDigits ds)

def isMark (c : Char) : Bool := c == 'e' || c == 'E'

/-- A number with a point or an exponent, after its sign. One that exceeds the range of doubles is
none, and neither is a number without both, however its digits are grouped. -/
def unsignedReal? (negative : Bool) (l : List Char) : Option Binary64 := do
  let digits := l.takeWhile fun c => !isMark c
  let whole ← wholeDigits? (digits.takeWhile (· ≠ '.'))
  let part ← match digits.dropWhile (· ≠ '.') with
    | [] => some []
    | _ :: r => joinedDigits? isDigit r
  let x ← match l.dropWhile fun c => !isMark c with
    | [] => some 0
    | _ :: r => exponent? r
  let v := Binary64.ofDecimal negative (ofDigits (whole ++ part)) (x - part.length)
  if v.isInfinite || !l.any (fun c => c == '.' || isMark c) then none else some v

/-- A real number; infinity and the undefined number by name. -/
def real? (l : List Char) : Option Binary64 :=
  let (negative, r) := sign l
  if r = ['i', 'n', 'f'] then some (.infinite negative)
  else if r = ['n', 'a', 'n'] then some .nan
  else unsignedReal? negative r

/-! ### Moments -/

def fixed? (n : Nat) (l : List Char) : Option (Nat × List Char) :=
  if (l.take n).length = n && (l.take n).all isDigit then some (ofDigits (l.take n), l.drop n)
  else none

def after? (c : Char) : List Char → Option (List Char)
  | [] => none
  | x :: r => if x = c then some r else none

def date? (l : List Char) : Option (String × List Char) := do
  let (y, r) ← fixed? 4 l
  let (m, r) ← fixed? 2 (← after? '-' r)
  let (d, r) ← fixed? 2 (← after? '-' r)
  if Calendar.isDate ⟨y, m, d⟩ then
    some (padded 4 y ++ "-" ++ padded 2 m ++ "-" ++ padded 2 d, r)
  else none

/-- The fraction of a second: nine digits at most, without the zeros at the end; one digit is
always left. -/
def fraction? : List Char → Option (String × List Char)
  | '.' :: r =>
    let (ds, r) := spanDigits r
    let kept := ((ds.take 9).reverse.dropWhile (· == '0')).reverse
    if ds.isEmpty then none
    else some (String.ofList ('.' :: if kept.isEmpty then ['0'] else kept), r)
  | r => some ("", r)

/-- The seconds of a time of day, brought to their form; they may be left out. -/
def seconds? : List Char → Option (String × List Char)
  | ':' :: r => do
    let (s, r) ← fixed? 2 r
    let (f, r) ← fraction? r
    if s ≤ 60 then some (":" ++ padded 2 s ++ f, r) else none
  | r => some ("", r)

/-- A time of day, brought to its form. -/
def time? (l : List Char) : Option (String × List Char) := do
  let (h, r) ← fixed? 2 l
  let (m, r) ← fixed? 2 (← after? ':' r)
  let (s, r) ← seconds? r
  if h ≤ 23 ∧ m ≤ 59 then some (padded 2 h ++ ":" ++ padded 2 m ++ s, r) else none

/-- The distance from universal time, brought to its form; none at all is allowed. -/
def offset? (l : List Char) : Option String :=
  let numeric (negative : Bool) (r : List Char) : Option String := do
    let (h, r) ← fixed? 2 r
    let (m, r) ← fixed? 2 (← after? ':' r)
    if h ≤ 23 ∧ m ≤ 59 ∧ r = [] then
      some ((if negative && (h, m) ≠ (0, 0) then "-" else "+") ++ padded 2 h ++ ":" ++ padded 2 m)
    else none
  match l with
  | [] => some ""
  | ['Z'] => some "Z"
  | ['z'] => some "Z"
  | '+' :: r => numeric false r
  | '-' :: r => numeric true r
  | _ => none

/-- A date, a time of day, or a date with a time of day and possibly an offset. -/
def moment? (l : List Char) : Option String :=
  match date? l with
  | some (d, []) => some d
  | some (d, c :: r) =>
    if c == 'T' || c == 't' || c == ' ' then do
      let (t, r) ← time? r
      some (d ++ "T" ++ t ++ (← offset? r))
    else none
  | none =>
    match time? l with
    | some (t, []) => some t
    | _ => none

/-! ### Scalars -/

/-- Whether a character ends a scalar. -/
def endsScalar (c : Char) : Bool :=
  c == ' ' || c == '\t' || c == '\n' || c == '\r' || c == ',' || c == ']' || c == '\x7d' || c == '#'

/-- The value of a scalar without quotes. -/
def scalarOf? (l : List Char) : Option Toml :=
  if l = ['t', 'r', 'u', 'e'] then some (.bool true)
  else if l = ['f', 'a', 'l', 's', 'e'] then some (.bool false)
  else match integer? l with
    | some n => some (.integer n)
    | none =>
      match moment? l with
      | some s => some (.moment s)
      | none => (real? l).map .real

/-- A scalar without quotes and what follows it. A time of day may follow its date after a blank. -/
def scalar? (l : List Char) : Option (Toml × List Char) :=
  let first := l.takeWhile fun c => !endsScalar c
  let rest := l.dropWhile fun c => !endsScalar c
  match date? first, rest with
  | some (_, []), ' ' :: c :: r =>
    if isDigit c then
      let more := (c :: r).takeWhile fun c => !endsScalar c
      (scalarOf? (first ++ ' ' :: more)).map fun v => (v, (c :: r).dropWhile fun c => !endsScalar c)
    else (scalarOf? first).map fun v => (v, rest)
  | _, _ => (scalarOf? first).map fun v => (v, rest)

end Entitlements.Toml
