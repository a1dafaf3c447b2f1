import RowAccess.Number.Exact
import RowAccess.Number.Numeral
/-!
# Decimals

Decimal numbers that remember the digits they were written with: `1.50` keeps its trailing zero and
`1E+5` its power of ten, although both are compared by value.
-/

namespace RowAccess

/-- A decimal number: `finite negative c e` stands for `± c * 10 ^ e`. -/
inductive Decimal where
  | undefined (negative signaling : Bool)
  | infinite (negative : Bool)
  | finite (negative : Bool) (coefficient : Nat) (exponent : Int)
deriving DecidableEq, Repr

namespace Decimal

/-- The decimal written by a numeral; nothing is rounded. -/
def ofNumeral : Numeral → Decimal
  | .undefined negative signaling => .undefined negative signaling
  | .infinite negative => .infinite negative
  | .finite negative coefficient exponent => .finite negative coefficient exponent

/-- Reads a decimal. -/
def ofText? (s : String) : Option Decimal := (Numeral.ofText? s).map ofNumeral

/-- The quantity a decimal stands for. -/
def exact : Decimal → Exact
  | .undefined _ _ => .undefined
  | .infinite negative => .infinite negative
  | .finite negative c e =>
    let signed (n : Nat) : Int := if negative then -(n : Int) else n
    if 0 ≤ e then .ratio (signed (c * Nat.pow 10 e.toNat)) 1
    else .ratio (signed c) (Nat.pow 10 (-e).toNat)

/-- The text of a decimal: positional while the power of ten is not positive and at most five zeros
follow the point, otherwise with one digit before the point and the power of ten. -/
def text : Decimal → String
  | .undefined negative signaling =>
    (if negative then "-" else "") ++ (if signaling then "sNaN" else "NaN")
  | .infinite negative => if negative then "-Infinity" else "Infinity"
  | .finite negative c e =>
    let digits := Nat.toDigits 10 c
    let left := e + digits.length
    let place := if e ≤ 0 ∧ -6 < left then left else 1
    let zeros (n : Nat) := List.replicate n '0'
    let body :=
      if place ≤ 0 then "0.".toList ++ zeros (-place).toNat ++ digits
      else if (digits.length : Int) ≤ place then digits ++ zeros (place.toNat - digits.length)
      else digits.take place.toNat ++ '.' :: digits.drop place.toNat
    let power := left - place
    let suffix := if power == 0 then ""
      else "E" ++ (if power < 0 then "-" else "+") ++ toString power.natAbs
    (if negative then "-" else "") ++ String.ofList body ++ suffix

/-- Whether a decimal counts as true: everything but the zeros does. -/
def truthy : Decimal → Bool
  | .finite _ c _ => c != 0
  | _ => true

end Decimal

end RowAccess
