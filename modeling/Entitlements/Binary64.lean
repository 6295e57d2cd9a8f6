import Entitlements.Text.Numeral

/-!
Binary floating-point numbers of 64 bits, in exact arithmetic. A ratio is rounded to the nearest of
them, and to the one with the even mantissa when two are equally near. Decimal numerals are read by
this rule, and a number is taken to an integer by rounding halves away from zero.
-/

namespace Entitlements

/-- A number of the format: `mantissa * 2 ^ exponent`, with a mantissa below `2 ^ 53`. -/
inductive Binary64 where
  | nan
  | infinite (negative : Bool)
  | finite (negative : Bool) (mantissa : Nat) (exponent : Int)
deriving DecidableEq

namespace Binary64

open Entitlements.Text

/-! ### Rounding -/

def minExponent : Int := -1074

def maxExponent : Int := 971

/-- The integer nearest to a ratio, the even one of two. -/
def nearestEven (num den : Nat) : Nat :=
  let q := num / den
  let r := num % den
  if den < 2 * r || (2 * r == den && q % 2 == 1) then q + 1 else q

/-- The ratio `num / (den * 2 ^ e)` as numerator and denominator. -/
def shifted (num den : Nat) (e : Int) : Nat × Nat :=
  if 0 ≤ e then (num, den * twoTo e.toNat) else (num * twoTo (-e).toNat, den)

/-- The number nearest to a ratio with a denominator above zero. -/
def ofRatio (negative : Bool) (num den : Nat) : Binary64 :=
  if num = 0 then finite negative 0 minExponent
  else
    let low : Int := (num.log2 : Int) - den.log2 - 53
    let p := shifted num den low
    let e := max minExponent (if p.1 / p.2 < twoTo 53 then low else low + 1)
    let p := shifted num den e
    let m := nearestEven p.1 p.2
    let (m, e) := if m = twoTo 53 then (twoTo 52, e + 1) else (m, e)
    if maxExponent < e then infinite negative else finite negative m e

/-- The number nearest to `digits * 10 ^ exponent`. Exponents far out of range are not expanded. -/
def ofDecimal (negative : Bool) (digits : Nat) (exponent : Int) : Binary64 :=
  let top := (Nat.toDigits 10 digits).length + exponent
  if digits = 0 || top < -330 then finite negative 0 minExponent
  else if 310 < top then infinite negative
  else if 0 ≤ exponent then ofRatio negative (digits * tenTo exponent.toNat) 1
  else ofRatio negative digits (tenTo (-exponent).toNat)

/-- The product of two numbers, rounded. -/
def mul : Binary64 → Binary64 → Binary64
  | finite s m e, finite t n f =>
    let p := shifted (m * n) 1 (-(e + f))
    ofRatio (s != t) p.1 p.2
  | infinite s, finite t n _ => if n = 0 then nan else infinite (s != t)
  | finite s m _, infinite t => if m = 0 then nan else infinite (s != t)
  | infinite s, infinite t => infinite (s != t)
  | _, _ => nan

def isInfinite : Binary64 → Bool
  | infinite _ => true
  | _ => false

/-! ### Reading -/

/-- A numeral with digits on at least one side of the point, and an exponent or none. -/
def unsigned? (negative : Bool) (l : List Char) : Option Binary64 := do
  let (whole, r) := spanDigits l
  let (part, r) := match r with
    | '.' :: r => spanDigits r
    | r => ([], r)
  if whole.isEmpty && part.isEmpty then none
  else
    let x ← match r with
      | [] => some 0
      | e :: r => if e == 'e' || e == 'E' then integer? r else none
    some (ofDecimal negative (ofDigits (whole ++ part)) (x - part.length))

/-- A numeral after its sign; infinity and the undefined number by name, in any case. -/
def body? (negative : Bool) (l : List Char) : Option Binary64 :=
  let name := String.ofList (l.map Char.toLower)
  if name = "inf" || name = "infinity" then some (infinite negative)
  else if name = "nan" then some nan
  else unsigned? negative l

/-- Reads a number with at most one sign. -/
def parse? (s : String) : Option Binary64 :=
  match s.toList with
  | '-' :: r => body? true r
  | '+' :: r => body? false r
  | r => body? false r

/-! ### Integers -/

/-- The nearest integer, halves away from zero, kept within 64 bits; zero for the undefined
number. -/
def toInteger : Binary64 → Int
  | nan => 0
  | infinite negative => if negative then least64 else greatest64
  | finite negative m e =>
    let size : Nat :=
      if 0 ≤ e then m * twoTo e.toNat
      else (2 * m + twoTo (-e).toNat) / twoTo ((-e).toNat + 1)
    if negative then max least64 (- Int.ofNat size) else min greatest64 (Int.ofNat size)

end Binary64

end Entitlements
