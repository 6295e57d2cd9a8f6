/-!
The Gregorian calendar, carried on before its introduction: lengths of months, the number of a day
counted from the start of 1970, and the date of a day number.
-/

namespace Entitlements.Calendar

/-- A day of the calendar; there is a year zero. -/
structure Date where
  year : Int
  month : Nat
  day : Nat
deriving DecidableEq

/-- Every fourth year, of the full centuries only every fourth. -/
def isLeap (year : Int) : Bool := year % 4 == 0 && (year % 100 != 0 || year % 400 == 0)

def monthLengths (year : Int) : List Nat :=
  [31, if isLeap year then 29 else 28, 31, 30, 31, 30, 31, 31, 30, 31, 30, 31]

def isDate (d : Date) : Bool :=
  1 ≤ d.month && 1 ≤ d.day &&
    match (monthLengths d.year)[d.month - 1]? with
    | some n => d.day ≤ n
    | none => false

/-- The days from the start of year one to the start of a year. -/
def daysBefore (year : Int) : Int :=
  let y := year - 1
  365 * y + y / 4 - y / 100 + y / 400

/-- The days from the start of year one to the start of 1970. -/
def epoch : Int := 719162

/-- The number of a day, counted from the first day of 1970. -/
def dayNumber (d : Date) : Int :=
  let ofYear : Nat := ((monthLengths d.year).take (d.month - 1)).foldl (· + ·) d.day
  daysBefore d.year + ofYear - 1 - epoch

/-- The month and the day of the day `n` of a year, both counted from zero. -/
def monthDay : List Nat → Nat → Nat × Nat
  | [], n => (0, n)
  | len :: rest, n =>
    if n < len then (0, n)
    else let p := monthDay rest (n - len); (p.1 + 1, p.2)

def dateOf (n : Int) : Date :=
  let days := n + epoch
  let r := (days % 146097).toNat
  let century := min 3 (r / 36524)
  let r := r - century * 36524
  let four := r / 1461
  let r := r - four * 1461
  let one := min 3 (r / 365)
  let year := 400 * (days / 146097) + (100 * century + 4 * four + one + 1 : Nat)
  let p := monthDay (monthLengths year) (r - one * 365)
  ⟨year, p.1 + 1, p.2 + 1⟩

end Entitlements.Calendar
