import RowAccess.Database.Cell
import RowAccess.Schema
/-!
# Sides of comparisons

Columns of numbers and columns of texts take a side in a comparison. What a column is compared with
is brought to that side first: beside numbers a text that reads as a number becomes that number,
beside texts a number becomes its text. The cells that a column stores are on its side already.
-/

namespace RowAccess

/-- The side that the stored values of a column take. -/
inductive Affinity where
  | numeric
  | textual
  | free
deriving DecidableEq, Repr

namespace Affinity

/-- The side on which two stored columns meet: that of numbers if one of them takes it. Otherwise
both stay as they are. -/
def ofBoth (first second : Affinity) : Affinity :=
  if first = .numeric ∨ second = .numeric then .numeric else .free

/-- A cell brought to a side. -/
def adapt : Affinity → Cell → Cell
  | .numeric, .text s => (Cell.readNumber? s).getD (.text s)
  | .textual, .int n => .text (toString n)
  | .textual, .real x => .text x.storedText
  | _, cell => cell

end Affinity

/-- The side of a column type. -/
def ColumnType.affinity : ColumnType → Affinity
  | .text | .uuid | .choice _ => .textual
  | .binary => .free
  | _ => .numeric

/-- The side of a column; a computed one takes none. -/
def Column.affinity (c : Column) : Affinity :=
  match c.factor with
  | none => c.type.affinity
  | some _ => .free

end RowAccess
