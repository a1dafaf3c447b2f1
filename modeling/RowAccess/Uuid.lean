import RowAccess.Text.Quoted
/-!
# Universally unique identifiers

Identifiers of 128 bits, written as 32 hexadecimal digits with or without dashes.
-/

namespace RowAccess

/-- An identifier of 128 bits. -/
structure Uuid where
  bits : Nat
deriving DecidableEq, Repr

namespace Uuid

/-- The value of a hexadecimal digit. -/
def hexDigit? (c : Char) : Option Nat :=
  if c.isDigit then some (c.toNat - '0'.toNat)
  else if 'a' ≤ c ∧ c ≤ 'f' then some (c.toNat - 'a'.toNat + 10)
  else if 'A' ≤ c ∧ c ≤ 'F' then some (c.toNat - 'A'.toNat + 10)
  else none

/-- Reads an identifier; dashes and braces are skipped. -/
def ofText? (s : String) : Option Uuid := do
  let digits ← (s.toList.filter Char.isAlphanum).mapM hexDigit?
  if digits.length == 32 then some ⟨digits.foldl (fun n d => 16 * n + d) 0⟩ else none

/-- The 32 digits of an identifier. -/
def hex (u : Uuid) : String := Text.hexadecimal 32 u.bits

/-- The dashed form of an identifier. -/
def text (u : Uuid) : String :=
  let digits := u.hex.toList
  let part (start count : Nat) := String.ofList ((digits.drop start).take count)
  "-".intercalate [part 0 8, part 8 4, part 12 4, part 16 4, part 20 12]

end Uuid

end RowAccess
