import RowAccess.Text.Printable
/-!
# Quoted text

How text and byte strings are spelled inside messages: between single quotes, or between double
quotes when the text holds a single quote and no double quote, with escapes for the backslash, the
chosen quote and everything that is not printable.
-/

namespace RowAccess.Text

/-- A number in lower-case hexadecimal, padded with zeros to the given width. -/
def hexadecimal (width n : Nat) : String :=
  let digits := Nat.toDigits 16 n
  String.ofList (List.replicate (width - digits.length) '0' ++ digits)

/-- A number in decimal, padded with zeros to the given width. -/
def padded (width n : Nat) : String :=
  let digits := Nat.toDigits 10 n
  String.ofList (List.replicate (width - digits.length) '0' ++ digits)

/-- The quote around a quoted text: double only if the text has single quotes and no double ones. -/
def quoteFor (characters : List Char) : Char :=
  if characters.contains '\'' && !characters.contains '"' then '"' else '\''

/-- The spelling of one character between the given quotes. -/
def escapeChar (quote c : Char) : String :=
  if c == quote || c == '\\' then String.ofList ['\\', c]
  else if c == '\n' then "\\n"
  else if c == '\r' then "\\r"
  else if c == '\t' then "\\t"
  else if isPrintable c then c.toString
  else if c.toNat < 0x100 then "\\x" ++ hexadecimal 2 c.toNat
  else if c.toNat < 0x10000 then "\\u" ++ hexadecimal 4 c.toNat
  else "\\U" ++ hexadecimal 8 c.toNat

/-- A text between quotes. -/
def quoted (s : String) : String :=
  let quote := quoteFor s.toList
  quote.toString ++ String.join (s.toList.map (escapeChar quote)) ++ quote.toString

/-- The spelling of one byte: printable ASCII stands for itself, but the given quote is escaped. -/
def escapeByte (quote : Char) (b : UInt8) : String :=
  let c := Char.ofNat b.toNat
  if c == quote || c == '\\' then String.ofList ['\\', c]
  else if c == '\n' then "\\n"
  else if c == '\r' then "\\r"
  else if c == '\t' then "\\t"
  else if 32 ≤ b.toNat && b.toNat < 127 then c.toString
  else "\\x" ++ hexadecimal 2 b.toNat

/-- The quote around a byte string, chosen as for a text. -/
def quoteForBytes (bytes : List UInt8) : Char := quoteFor (bytes.map fun b => Char.ofNat b.toNat)

/-- A byte string between quotes, marked by a leading letter. -/
def quotedBytes (bytes : List UInt8) : String :=
  let quote := quoteForBytes bytes
  "b" ++ quote.toString ++ String.join (bytes.map (escapeByte quote)) ++ quote.toString

/-- A changeable byte string between quotes: its single quotes are escaped between double quotes
too. -/
def quotedBuffer (bytes : List UInt8) : String :=
  let quote := (quoteForBytes bytes).toString
  "b" ++ quote ++ String.join (bytes.map (escapeByte '\'')) ++ quote

/-- A text as a string constant of a select statement: every single quote is written twice. -/
def sqlQuoted (s : String) : String :=
  "'" ++ String.join (s.toList.map fun c => if c == '\'' then "''" else c.toString) ++ "'"

/-- Whether a text holds another as a part. -/
def holds (part : List Char) : List Char → Bool
  | [] => part.isEmpty
  | c :: rest => part.isPrefixOf (c :: rest) || holds part rest

/-- Bytes in lower-case hexadecimal, two digits each. -/
def hexBytes (bytes : List UInt8) : String :=
  String.join (bytes.map fun b => hexadecimal 2 b.toNat)

end RowAccess.Text
