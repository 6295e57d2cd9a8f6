import Entitlements.Binary64
import Entitlements.Json

/-!
Soundness of JSON values: what a value must keep to so that all of it can be held in memory. Its
arrays and objects are nested no more deeply than allowed, its texts have characters, and its numbers
do not exceed the range of doubles. A value that is skipped need not be sound.
-/

namespace Entitlements.Json

open Entitlements.Text

/-- How deeply arrays and objects of a document may be nested. -/
def nestingLimit : Nat := 127

/-- A number as it is gathered digit by digit: those that 64 bits hold, and a power of ten. -/
structure Gathered where
  significand : Nat
  exponent : Int

/-- Takes a digit before the point. One that 64 bits cannot hold moves the power of ten, and so do
all after it. -/
def Gathered.takeWhole (full : Bool) (g : Gathered) : List Char → Gathered
  | [] => g
  | c :: r =>
    let s := 10 * g.significand + digitValue c
    if full || twoTo 64 ≤ s then takeWhole true { g with exponent := g.exponent + 1 } r
    else takeWhole false { g with significand := s } r

/-- Takes the digits after the point up to the first that 64 bits cannot hold. -/
def Gathered.takeFraction (g : Gathered) : List Char → Gathered
  | [] => g
  | c :: r =>
    let s := 10 * g.significand + digitValue c
    if twoTo 64 ≤ s then g else takeFraction ⟨s, g.exponent - 1⟩ r

/-- The significand, rounded to a double, times the power of ten, rounded too, is infinite. -/
def Gathered.overflows (g : Gathered) : Bool :=
  if g.significand = 0 || g.exponent < 0 then false
  else if 308 < g.exponent then true
  else ((Binary64.ofDecimal false g.significand 0).mul
    (Binary64.ofDecimal false 1 g.exponent)).isInfinite

def Number.overflows (n : Number) : Bool :=
  let g := Gathered.takeWhole false ⟨0, 0⟩ n.whole
  let g := g.takeFraction (n.fraction.getD [])
  { g with exponent := g.exponent + n.exponent.getD 0 }.overflows

mutual

/-- Whether a value is sound, with room for so many levels of nesting. -/
def isSound : Nat → Json → Bool
  | _, .null => true
  | _, .bool _ => true
  | _, .number n => !n.overflows
  | _, .text s => s.isSome
  | room, .array items => room != 0 && areSound (room - 1) items
  | room, .object members => room != 0 && membersSound (room - 1) members

@[inherit_doc isSound]
def areSound : Nat → List Json → Bool
  | _, [] => true
  | room, v :: vs => isSound room v && areSound room vs

@[inherit_doc isSound]
def membersSound : Nat → List (Option String × Json) → Bool
  | _, [] => true
  | room, (k, v) :: ms => k.isSome && isSound room v && membersSound room ms

end

end Entitlements.Json
