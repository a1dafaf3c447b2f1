import RowAccess.Number.Exact
import RowAccess.Number.Numeral
import RowAccess.Text.Digit
/-!
# Binary doubles

Numbers with a significand of 53 bits, kept as the exact quantity they stand for. A numeral is
rounded to the nearest double, a tie going to the even significand; a double is written with the
fewest digits that round back to it.
-/

namespace RowAccess

/-- A double: `finite negative m e` stands for `± m * 2 ^ e` with `m < 2 ^ 53` and `-1074 ≤ e`. -/
inductive Binary64 where
  | undefined
  | infinite (negative : Bool)
  | finite (negative : Bool) (significand : Nat) (exponent : Int)
deriving DecidableEq, Repr

namespace Binary64

/-- The zero of the given sign. -/
def zero (negative : Bool) : Binary64 := .finite negative 0 (-1074)

/-- A quotient rounded to the nearest integer, a tie going to the even one. -/
def roundHalfEven (numerator denominator : Nat) : Nat :=
  let q := numerator / denominator
  let twice := 2 * (numerator % denominator)
  if twice < denominator then q
  else if denominator < twice then q + 1
  else q + q % 2

/-- The numerator and denominator of a fraction divided by a power of two. -/
def scaleDown (numerator denominator : Nat) (e : Int) : Nat × Nat :=
  if 0 ≤ e then (numerator, denominator * Nat.pow 2 e.toNat)
  else (numerator * Nat.pow 2 (-e).toNat, denominator)

/-- The double nearest to a fraction. -/
def ofFraction (negative : Bool) (numerator denominator : Nat) : Binary64 :=
  if numerator == 0 then zero negative
  else
    let low : Int := (Nat.log2 numerator : Int) - (Nat.log2 denominator : Int) - 53
    let (n, d) := scaleDown numerator denominator low
    let e := max (if n / d < Nat.pow 2 53 then low else low + 1) (-1074)
    let (n, d) := scaleDown numerator denominator e
    let m := roundHalfEven n d
    let (m, e) := if m == Nat.pow 2 53 then (Nat.pow 2 52, e + 1) else (m, e)
    if 971 < e then .infinite negative else .finite negative m e

/-- The double nearest to an integer. -/
def ofInt (n : Int) : Binary64 := ofFraction (n < 0) n.natAbs 1

/-- The double nearest to a numeral. Powers of ten far outside the range need no arithmetic. -/
def ofNumeral : Numeral → Binary64
  | .undefined _ _ => .undefined
  | .infinite negative => .infinite negative
  | .finite negative coefficient exponent =>
    let digits := (Nat.toDigits 10 coefficient).length
    if coefficient == 0 || exponent + digits < -400 then zero negative
    else if 400 < exponent then .infinite negative
    else if 0 ≤ exponent then ofFraction negative (coefficient * Nat.pow 10 exponent.toNat) 1
    else ofFraction negative coefficient (Nat.pow 10 (-exponent).toNat)

/-- Reads a double. Digits of other scripts count as digits and their blanks as blanks; underscores
may stand between digits only. -/
def ofText? (s : String) : Option Binary64 :=
  let cs := Numeral.trimmed (s.toList.map Text.plainDigit)
  let (negative, rest) := Numeral.takeSign (cs.filter (· != '_'))
  if Numeral.separatesDigits false cs then
    match Numeral.readUnsigned? negative rest with
    | some (.undefined _ true) => none
    | numeral => numeral.map ofNumeral
  else none

/-- The quantity a double stands for. -/
def exact : Binary64 → Exact
  | .undefined => .undefined
  | .infinite negative => .infinite negative
  | .finite negative m e =>
    let (n, d) := if 0 ≤ e then (m * Nat.pow 2 e.toNat, 1) else (m, Nat.pow 2 (-e).toNat)
    .ratio (if negative then -(n : Int) else n) d

/-- How many powers of ten bring a fraction below one up to at least one tenth; the counter
bounds the search by the range of the format. -/
def leadingZeros (numerator denominator : Nat) : Nat → Nat
  | 0 => 0
  | bound + 1 =>
    if denominator ≤ 10 * numerator then 0
    else leadingZeros (10 * numerator) denominator bound + 1

/-- The place `k` of the decimal point: the fraction lies from `10 ^ (k - 1)` up to `10 ^ k`. -/
def pointPlace (numerator denominator : Nat) : Int :=
  if denominator ≤ numerator then (Nat.toDigits 10 (numerator / denominator)).length
  else -(leadingZeros numerator denominator 400 : Int)

/-- The decimal with the given number of digits that is nearest to `value / unit` among those that
lie between `low / unit` and `high / unit`, if there is one; the bounds count when `closed`. -/
def nearestWithin? (low value high unit : Nat) (closed : Bool) (place : Int) (digits : Nat) :
    Option Nat :=
  let shift := place - digits
  let (up, down) :=
    if 0 ≤ shift then (1, Nat.pow 10 shift.toNat) else (Nat.pow 10 (-shift).toNat, 1)
  let grid := unit * down
  let below := value * up / grid
  let inside (c : Nat) : Bool :=
    if closed then low * up ≤ c * grid && c * grid ≤ high * up
    else low * up < c * grid && c * grid < high * up
  let nearer := roundHalfEven (value * up) grid
  let farther := if nearer == below then below + 1 else below
  if inside nearer then some nearer
  else if inside farther then some farther
  else none

/-- The shortest of the decimals with `digits` digits or more that lie within the bounds. -/
def shortestFrom (low value high unit : Nat) (closed : Bool) (place : Int) (digits : Nat) :
    Nat → Nat × Nat
  | 0 => (value, digits)
  | bound + 1 =>
    match nearestWithin? low value high unit closed place digits with
    | some c => (c, digits)
    | none => shortestFrom low value high unit closed place (digits + 1) bound

/-- Digits without the zeros at their end. -/
def withoutZeros (digits : List Char) : List Char :=
  (digits.reverse.dropWhile (· == '0')).reverse

/-- The fewest digits that round back to `m * 2 ^ e`, and the place of the decimal point. -/
def shortest (m : Nat) (e : Int) : List Char × Int :=
  let low := if m == Nat.pow 2 52 && -1074 < e then 4 * m - 1 else 4 * m - 2
  let power := e - 2
  let (up, unit) :=
    if 0 ≤ power then (Nat.pow 2 power.toNat, 1) else (1, Nat.pow 2 (-power).toNat)
  let place := pointPlace (4 * m * up) unit
  let (c, digits) :=
    shortestFrom (low * up) (4 * m * up) ((4 * m + 2) * up) unit (m % 2 == 0) place 1 17
  let written := Nat.toDigits 10 c
  let place := if digits < written.length then place + 1 else place
  (withoutZeros written, place)

/-- Digits with the decimal point at the given place, and at least one digit after it. -/
def positional (digits : List Char) (place : Int) : List Char :=
  let zeros (n : Nat) := List.replicate n '0'
  if place ≤ 0 then "0.".toList ++ zeros (-place).toNat ++ digits
  else if digits.length ≤ place.toNat then
    digits ++ zeros (place.toNat - digits.length) ++ ".0".toList
  else digits.take place.toNat ++ '.' :: digits.drop place.toNat

/-- The power of ten that moves the decimal point from after the first digit to the given place, in
at least two digits. -/
def powerOfTen (place : Int) : List Char :=
  let shown := Nat.toDigits 10 (place - 1).natAbs
  'e' :: (if place ≤ 0 then '-' else '+') ::
    (if shown.length < 2 then '0' :: shown else shown)

/-- Writes digits with the decimal point at the given place: positional from `0.0001` up to sixteen
digits before the point, otherwise with a power of ten. -/
def layout (digits : List Char) (place : Int) : String :=
  if -4 < place ∧ place ≤ 16 then String.ofList (positional digits place)
  else
    let fraction := if digits.length ≤ 1 then [] else '.' :: digits.drop 1
    String.ofList (digits.take 1 ++ fraction ++ powerOfTen place)

/-- The text of a double. -/
def text : Binary64 → String
  | .undefined => "nan"
  | .infinite negative => if negative then "-inf" else "inf"
  | .finite negative m e =>
    let sign := if negative then "-" else ""
    if m == 0 then sign ++ "0.0"
    else
      let (digits, place) := shortest m e
      sign ++ layout digits place

/-- The text of a double in at most fifteen digits, the way a column of texts stores it: half of the
last digit is rounded up, a power of ten is written from sixteen digits before the point on, and a
zero has no sign. -/
def storedText : Binary64 → String
  | .undefined => "NaN"
  | .infinite negative => if negative then "-Inf" else "Inf"
  | .finite negative m e =>
    let (n, d) := if 0 ≤ e then (m * Nat.pow 2 e.toNat, 1) else (m, Nat.pow 2 (-e).toNat)
    if m == 0 then "0.0"
    else
      let place := pointPlace n d
      let (up, down) := if place ≤ 15 then (Nat.pow 10 (15 - place).toNat, 1)
        else (1, Nat.pow 10 (place - 15).toNat)
      let written := Nat.toDigits 10 ((2 * n * up + d * down) / (2 * d * down))
      let place := if 15 < written.length then place + 1 else place
      let digits := withoutZeros written
      let body := if -4 < place ∧ place ≤ 15 then positional digits place
        else positional digits 1 ++ powerOfTen place
      (if negative then "-" else "") ++ String.ofList body

/-- Whether a double has a minus sign, as one of the zeros does. -/
def isNegative : Binary64 → Bool
  | .infinite negative | .finite negative _ _ => negative
  | .undefined => false

/-- The double nearest to a product, with the sign of the product. -/
def times (x y : Binary64) : Binary64 :=
  let negative := x.isNegative != y.isNegative
  match x.exact, y.exact with
  | .ratio n d, .ratio m e => ofFraction negative (n * m).natAbs (d * e)
  | .infinite _, .infinite _ => .infinite negative
  | .infinite _, .ratio n _ | .ratio n _, .infinite _ =>
    if n == 0 then .undefined else .infinite negative
  | _, _ => .undefined

/-- Whether a double counts as true: everything but the zeros does. -/
def truthy : Binary64 → Bool
  | .finite _ m _ => m != 0
  | _ => true

end Binary64

end RowAccess
