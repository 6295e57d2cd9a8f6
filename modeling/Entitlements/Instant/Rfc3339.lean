import Entitlements.Instant
import Entitlements.Instant.Calendar
import Entitlements.Text.Blank
import Entitlements.Text.Numeral

/-!
Timestamps in the manner of RFC 3339. The reader is relaxed: white space may stand around the fields
of the date and of the time, month to second need one digit only, and the offset may be written
without its colon. The writer gives universal time in one fixed form, with the fewest of zero, three,
six or nine digits of a fraction that are exact.
-/

namespace Entitlements.Instant

open Entitlements.Text Entitlements.Calendar

/-- The first and the last year that can be written. -/
def firstYear : Int := -262143

@[inherit_doc firstYear]
def lastYear : Int := 262142

/-! ### Reading -/

/-- The rest after one given character. -/
def mark? (c : Char) : List Char → Option (List Char)
  | [] => none
  | x :: r => if x = c then some r else none

/-- A mark that may have white space on both sides. -/
def spacedMark? (c : Char) (l : List Char) : Option (List Char) :=
  (mark? c (skipBlank l)).map skipBlank

/-- A year: at most four digits, or a sign and any number of digits. -/
def year? (l : List Char) : Option (Int × List Char) :=
  match skipBlank l with
  | '-' :: r => (takeNumber? r.length r).map fun p => (- Int.ofNat p.1, p.2)
  | '+' :: r => (takeNumber? r.length r).map fun p => (Int.ofNat p.1, p.2)
  | r => (takeNumber? 4 r).map fun p => (Int.ofNat p.1, p.2)

/-- One or two digits of a number between two bounds. -/
def field? (low high : Nat) (l : List Char) : Option (Nat × List Char) := do
  let (n, r) ← takeNumber? 2 l
  if low ≤ n ∧ n ≤ high then some (n, r) else none

/-- The nanoseconds of a fraction, if there is one; digits after the ninth do not count. -/
def fraction? : List Char → Option (Nat × List Char)
  | '.' :: r =>
    let (ds, rest) := spanDigits r
    let kept := ds.take 9
    if ds.isEmpty then none else some (ofDigits kept * tenTo (9 - kept.length), rest)
  | r => some (0, r)

def twoDigits? : List Char → Option (Nat × List Char)
  | a :: b :: r => if isDigit a && isDigit b then some (10 * digitValue a + digitValue b, r) else none
  | _ => none

/-- The seconds by which local time is ahead, from the digits after the sign. -/
def offsetSize? (l : List Char) : Option (Nat × List Char) := do
  let (h, r) ← twoDigits? l
  let (m, r) ← twoDigits? (r.dropWhile fun c => c == ':' || isBlank c)
  if h ≤ 23 ∧ m ≤ 59 then some (3600 * h + 60 * m, r) else none

/-- The seconds by which local time is ahead of universal time. -/
def offset? (l : List Char) : Option (Int × List Char) :=
  if (l.take 3).map Char.toLower = ['u', 't', 'c'] then some (0, l.drop 3)
  else match l with
    | 'Z' :: r => some (0, r)
    | 'z' :: r => some (0, r)
    | '+' :: r => (offsetSize? r).map fun p => (Int.ofNat p.1, p.2)
    | '-' :: r => (offsetSize? r).map fun p => (- Int.ofNat p.1, p.2)
    | '\u2212' :: r => (offsetSize? r).map fun p => (- Int.ofNat p.1, p.2)
    | _ => none

/-- The instant at which clocks that are ahead by `offset` show a date and a time of day. Second 60
is a leap second. -/
def ofLocal? (date : Date) (hour minute second nanos : Nat) (offset : Int) : Option Instant :=
  if isDate date && firstYear ≤ date.year && date.year ≤ lastYear then
    let s : Nat := 3600 * hour + 60 * minute + min second 59
    let t : Int := dayNumber date * 86400 + s - offset
    let year := (dateOf (t / 86400)).year
    if firstYear ≤ year && year ≤ lastYear then
      let n := nanos + (second - 59) * 1000000000
      if h : n < 2000000000 then some ⟨t, n, h⟩ else none
    else none
  else none

def parse? (s : String) : Option Instant := do
  let (year, r) ← year? s.toList
  let (month, r) ← field? 1 12 (← spacedMark? '-' r)
  let (day, r) ← field? 1 31 (← spacedMark? '-' r)
  let r ← match r with
    | 'T' :: r => some r
    | 't' :: r => some r
    | ' ' :: r => some r
    | _ => none
  let (hour, r) ← field? 0 23 (skipBlank r)
  let (minute, r) ← field? 0 59 (← spacedMark? ':' r)
  let (second, r) ← field? 0 60 (← spacedMark? ':' r)
  let (nanos, r) ← fraction? r
  let (offset, r) ← offset? (skipBlank r)
  if r.all isBlank then ofLocal? ⟨year, month, day⟩ hour minute second nanos offset else none

/-! ### Writing -/

/-- Four digits, or a sign and at least four digits for a year before zero or after 9999. -/
def yearText (y : Int) : String :=
  if 0 ≤ y && y ≤ 9999 then padded 4 y.natAbs
  else (if y < 0 then "-" else "+") ++ padded 4 y.natAbs

/-- The fewest of zero, three, six or nine digits that are exact. -/
def fractionText (n : Nat) : String :=
  if n = 0 then ""
  else if n % 1000000 = 0 then "." ++ padded 3 (n / 1000000)
  else if n % 1000 = 0 then "." ++ padded 6 (n / 1000)
  else "." ++ padded 9 n

/-- The timestamp of an instant in universal time. -/
def render (i : Instant) : String :=
  let d := dateOf (i.second / 86400)
  let s := (i.second % 86400).toNat
  let leap := i.nanos / 1000000000
  yearText d.year ++ "-" ++ padded 2 d.month ++ "-" ++ padded 2 d.day ++ "T"
    ++ padded 2 (s / 3600) ++ ":" ++ padded 2 (s / 60 % 60) ++ ":" ++ padded 2 (s % 60 + leap)
    ++ fractionText (i.nanos % 1000000000) ++ "Z"

end Entitlements.Instant
