/-!
Decimal numerals in ASCII digits: reading them from the front of a text, and writing numbers with a
least width.
-/

namespace Entitlements.Text

def isDigit (c : Char) : Bool := '0' ≤ c && c ≤ '9'

def digitValue (c : Char) : Nat := c.toNat - '0'.toNat

/-- The number that a list of digits denotes, the first the most significant. -/
def ofDigits (l : List Char) : Nat := l.foldl (fun n c => 10 * n + digitValue c) 0

def hexValue? (c : Char) : Option Nat :=
  if isDigit c then some (digitValue c)
  else if 'a' ≤ c && c ≤ 'f' then some (c.toNat - 'a'.toNat + 10)
  else if 'A' ≤ c && c ≤ 'F' then some (c.toNat - 'A'.toNat + 10)
  else none

/-- The digits at the front of a text and the rest of it. -/
def spanDigits (l : List Char) : List Char × List Char := (l.takeWhile isDigit, l.dropWhile isDigit)

/-- The number in front of a text, of at least one digit; at most `most` digits are taken. -/
def takeNumber? (most : Nat) (l : List Char) : Option (Nat × List Char) :=
  match (l.take most).takeWhile isDigit with
  | [] => none
  | ds => some (ofDigits ds, l.drop ds.length)

/-- The number that a text of digits alone denotes. -/
def number? (l : List Char) : Option Nat :=
  if !l.isEmpty && l.all isDigit then some (ofDigits l) else none

/-- The integer that a text of digits with at most one sign before them denotes. -/
def integer? : List Char → Option Int
  | '+' :: r => (number? r).map Int.ofNat
  | '-' :: r => (number? r).map fun n => - Int.ofNat n
  | r => (number? r).map Int.ofNat

def decimal (n : Nat) : String := String.ofList (Nat.toDigits 10 n)

/-- The decimal digits of an integer, after a minus sign if it is negative. -/
def decimalInt (n : Int) : String := if n < 0 then "-" ++ decimal n.natAbs else decimal n.natAbs

/-- The decimal digits of a number, with zeros before them up to a least width. -/
def padded (width n : Nat) : String :=
  let ds := Nat.toDigits 10 n
  String.ofList (List.replicate (width - ds.length) '0' ++ ds)

def twoTo (n : Nat) : Nat := Nat.pow 2 n

def tenTo (n : Nat) : Nat := Nat.pow 10 n

def least64 : Int := -9223372036854775808

def greatest64 : Int := 9223372036854775807

def fits64 (n : Int) : Bool := least64 ≤ n && n ≤ greatest64

/-- An ASCII capital as its small letter; any other character as it is. -/
def lowerAscii (s : String) : String := String.ofList (s.toList.map Char.toLower)

end Entitlements.Text
