import Entitlements.Binary64

/-!
The shortest decimal text of a number: the fewest digits that still round to it, of those the
nearest to it, and the greater one of two that are equally near. The text is positional, whatever
the size of the number.
-/

namespace Entitlements.Binary64

open Entitlements.Text

/-- A decimal `digits * 10 ^ exponent`. -/
structure Decimal where
  digits : Nat
  exponent : Int

/-- The greatest `k` with `10 ^ k` at most `num / den`, searched from `k` downwards. -/
def leading (num den : Nat) : Nat → Int → Int
  | 0, k => k
  | fuel + 1, k =>
    let fits := if 0 ≤ k then den * tenTo k.toNat ≤ num else den ≤ num * tenTo (-k).toNat
    if fits then k else leading num den fuel (k - 1)

/-- The reals that round to a number, four times as large and over a power of two: their least
and their greatest, the number itself, the denominator, and whether the ends belong to them. -/
structure Interval where
  low : Nat
  high : Nat
  value : Nat
  den : Nat
  closed : Bool

/-- The reals that round to `m * 2 ^ e`. Below a power of two the next number is half as far. -/
def intervalOf (m : Nat) (e : Int) : Interval :=
  let below := if m = twoTo 52 && minExponent < e then 1 else 2
  let (up, down) : Nat × Nat := if 0 ≤ e then (twoTo e.toNat, 1) else (1, twoTo (-e).toNat)
  ⟨(4 * m - below) * up, (4 * m + 2) * up, 4 * m * up, 4 * down, m % 2 == 0⟩

/-- Whether a decimal rounds to the number. -/
def Interval.holds (i : Interval) (d : Decimal) : Bool :=
  let (x, den) : Nat × Nat :=
    if 0 ≤ d.exponent then (d.digits * tenTo d.exponent.toNat * i.den, 1)
    else (d.digits * i.den, tenTo (-d.exponent).toNat)
  if i.closed then i.low * den ≤ x && x ≤ i.high * den else i.low * den < x && x < i.high * den

/-- The decimal with a given last place that rounds to the number and is nearest to it. -/
def Interval.onGrid (i : Interval) (place : Int) : Option Decimal :=
  let (num, den) : Nat × Nat :=
    if 0 ≤ place then (i.value, i.den * tenTo place.toNat)
    else (i.value * tenTo (-place).toNat, i.den)
  let down : Decimal := ⟨num / den, place⟩
  let up : Decimal := ⟨num / den + 1, place⟩
  let nearer := if 2 * (num % den) < den then [down, up] else [up, down]
  nearer.find? i.holds

/-- The first decimal found on finer and finer grids. -/
def Interval.shortest (i : Interval) : Nat → Int → Decimal
  | 0, place => ⟨0, place⟩
  | fuel + 1, place =>
    match i.onGrid place with
    | some d => d
    | none => i.shortest fuel (place - 1)

def Decimal.positional (d : Decimal) : String :=
  let ds := Nat.toDigits 10 d.digits
  if 0 ≤ d.exponent then String.ofList (ds ++ List.replicate d.exponent.toNat '0')
  else
    let places := (-d.exponent).toNat
    let ds := List.replicate (places + 1 - ds.length) '0' ++ ds
    let part := ((ds.drop (ds.length - places)).reverse.dropWhile (· == '0')).reverse
    String.ofList (ds.take (ds.length - places) ++ (if part.isEmpty then [] else '.' :: part))

def render : Binary64 → String
  | nan => "NaN"
  | infinite negative => if negative then "-inf" else "inf"
  | finite negative m e =>
    (if negative then "-" else "") ++
      if m = 0 then "0"
      else
        let i := intervalOf m e
        (i.shortest 800 (leading i.value i.den 700 309)).positional

end Entitlements.Binary64
