/-!
# Exact numeric values

The mathematical value behind a number, whatever its representation: integers, binary doubles and
decimals are compared by the quantity they stand for, never by their spelling.
-/

namespace RowAccess

/-- The quantity a number stands for: a fraction, an infinity, or no number at all. -/
inductive Exact where
  | undefined
  | infinite (negative : Bool)
  | ratio (numerator : Int) (denominator : Nat)
deriving DecidableEq, Repr

namespace Exact

/-- The quantity of an integer. -/
def ofInt (n : Int) : Exact := .ratio n 1

/-- Numeric equality: fractions by cross multiplication, and an undefined value equals nothing. -/
def equals : Exact → Exact → Bool
  | .infinite s, .infinite t => s == t
  | .ratio n d, .ratio m e => n * (e : Int) == m * (d : Int)
  | _, _ => false

/-- Strict numeric order; an undefined value is below nothing. -/
def less : Exact → Exact → Bool
  | .infinite s, .infinite t => s && !t
  | .infinite s, .ratio _ _ => s
  | .ratio _ _, .infinite t => !t
  | .ratio n d, .ratio m e => decide (n * (e : Int) < m * (d : Int))
  | _, _ => false

theorem equals_ofInt (m n : Int) : (ofInt m).equals (ofInt n) = decide (m = n) := by
  simp [ofInt, equals, Bool.beq_eq_decide_eq]

/-- The integer a fraction amounts to when its fractional part is dropped. -/
def truncate? : Exact → Option Int
  | .ratio n d => some (Int.tdiv n d)
  | _ => none

end Exact

end RowAccess
