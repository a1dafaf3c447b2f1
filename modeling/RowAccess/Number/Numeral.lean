/-!
# Numerals

Reading a number written with an optional sign, digits around an optional point, and an optional
power of ten. Blanks around the numeral and underscores between digits are accepted, as are words
for infinity and for an undefined value; readers that are stricter are put together from the same
parts.
-/

namespace RowAccess

/-- A number as it is written, before it is rounded to any format. -/
inductive Numeral where
  /-- The coefficient times the given power of ten. -/
  | finite (negative : Bool) (coefficient : Nat) (exponent : Int)
  | infinite (negative : Bool)
  | undefined (negative signaling : Bool)
deriving DecidableEq, Repr

namespace Numeral

/-- The digits at the start of a text, most significant first, and what follows them. -/
def takeDigits : List Char → List Nat × List Char
  | [] => ([], [])
  | c :: rest =>
    if c.isDigit then
      let (digits, after) := takeDigits rest
      ((c.toNat - '0'.toNat) :: digits, after)
    else ([], c :: rest)

/-- The number written by a list of decimal digits. -/
def ofDigits (digits : List Nat) : Nat := digits.foldl (fun n d => 10 * n + d) 0

/-- Splits off a leading sign; the flag says whether it is a minus. -/
def takeSign : List Char → Bool × List Char
  | '-' :: rest => (true, rest)
  | '+' :: rest => (false, rest)
  | cs => (false, cs)

/-- Reads the power of ten at the end of a numeral. -/
def readExponent? : List Char → Option Int
  | [] => some 0
  | c :: rest =>
    if c == 'e' || c == 'E' then
      let (negative, digits) := takeSign rest
      match takeDigits digits with
      | ([], _) => none
      | (ds, []) => some (if negative then -(ofDigits ds : Int) else ofDigits ds)
      | _ => none
    else none

/-- Reads digits around an optional point and an optional power of ten. -/
def readDigits? (negative : Bool) (cs : List Char) : Option Numeral :=
  let (whole, rest) := takeDigits cs
  let (fraction, rest) := match rest with
    | '.' :: after => takeDigits after
    | _ => ([], rest)
  if whole.isEmpty && fraction.isEmpty then none
  else (readExponent? rest).map fun e =>
    .finite negative (ofDigits (whole ++ fraction)) (e - fraction.length)

/-- Reads the part of a numeral after its sign, a word or digits. -/
def readUnsigned? (negative : Bool) (cs : List Char) : Option Numeral :=
  match cs.map Char.toLower with
  | ['i', 'n', 'f'] | ['i', 'n', 'f', 'i', 'n', 'i', 't', 'y'] => some (.infinite negative)
  | ['n', 'a', 'n'] => some (.undefined negative false)
  | ['s', 'n', 'a', 'n'] => some (.undefined negative true)
  | _ => readDigits? negative cs

/-- Whether a character is a blank: a space, a tabulator or a line or page break. -/
def isBlank (c : Char) : Bool := c == ' ' || 9 ≤ c.toNat && c.toNat ≤ 13

/-- Characters without the blanks around them. -/
def trimmed (cs : List Char) : List Char :=
  ((cs.dropWhile isBlank).reverse.dropWhile isBlank).reverse

/-- Whether every underscore has a digit before it and a digit after it; the flag says whether a
digit precedes. -/
def separatesDigits (precedes : Bool) : List Char → Bool
  | [] => true
  | '_' :: rest => precedes && (rest.head?.any Char.isDigit && separatesDigits false rest)
  | c :: rest => separatesDigits c.isDigit rest

/-- Reads a numeral. Where underscores stand does not matter. -/
def ofText? (s : String) : Option Numeral :=
  let (negative, rest) := takeSign ((trimmed s.toList).filter (· != '_'))
  readUnsigned? negative rest

end Numeral

end RowAccess
