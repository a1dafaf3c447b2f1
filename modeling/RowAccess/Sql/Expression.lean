import RowAccess.Sql.Literal
import RowAccess.Sql.Piece
/-!
# Written expressions

Columns and filters as pieces of a statement. Values are written as constants or left to
parameters; truth values and absent values are constants either way.
-/

namespace RowAccess.Sql

/-- How values stand in a statement. -/
inductive Style where
  | literal
  | bound
deriving DecidableEq, Repr

variable {M : Type} (S : Schema M)

/-- Pieces with a separator between them. -/
def separated (separator : String) : List (List (Piece M)) → List (Piece M)
  | [] => []
  | [part] => part
  | part :: rest => part ++ .text separator :: separated separator rest

/-- Pieces in round brackets. -/
def parenthesized (pieces : List (Piece M)) : List (Piece M) :=
  .text "(" :: pieces ++ [.text ")"]

/-- The name a statement calls a source by. -/
def sourceName (source : Source M) : Piece M :=
  let table := (S.model source.model).table
  match source.role with
  | .own => .text (identifier table)
  | .joined _ _ | .renamed _ => .alias (.alias source) table

/-- A stored column of a source. -/
def storedColumn (source : Source M) (name : String) : List (Piece M) :=
  [sourceName S source, .text ("." ++ identifier name)]

/-- The base name of the parameters that a column is compared with. -/
def parameterBase (column : Column) : String :=
  match column.factor with
  | none => column.name
  | some _ => "param"

/-- A column. -/
def column (style : Style) (c : ColumnRef M) : List (Piece M) :=
  let stored := storedColumn S c.source c.column.name
  match c.column.factor, style with
  | none, _ => stored
  | some factor, .literal => stored ++ [.text (" * " ++ toString factor)]
  | some factor, .bound =>
    stored ++ [.text " * ", .sharedParameter (.factor c) "param" (.int factor)]

/-- The sign of a comparison. -/
def sign : Comparator → String
  | .equal => " = "
  | .distinct => " IS DISTINCT FROM "
  | .unequal => " != "

/-- The value that a column is compared with. -/
def operand (style : Style) (c : Column) (v : Value) : Except Fault (List (Piece M)) :=
  match v, style with
  | .null, _ => .ok [.text "NULL"]
  | .bool b, _ => .ok [.text (boolean b)]
  | v, .literal => (constant (writtenType c.type v) v).map fun s => [.text s]
  | v, .bound => .ok [.parameter (parameterBase c) v]

/-- The list that a column is looked for in, and what stands beside it if it is empty. -/
def listOperand (style : Style) (c : Column) (values : List Value) (ifEmpty : String) :
    Except Fault (List (Piece M)) :=
  match style, values with
  | .bound, _ => .ok [.parameterList (parameterBase c) values]
  | .literal, [] => .ok [.text ("(NULL)" ++ ifEmpty)]
  | .literal, _ => (constants c.type values).map fun texts =>
    [.text ("(" ++ ", ".intercalate texts ++ ")")]

/-- A filter. An "or" inside an "and" is put in brackets. -/
def filter (style : Style) : Filter M → Except Fault (List (Piece M))
  | .compare comparator c v => do
    let value ← operand style c.column v
    .ok (column S style c ++ .text (sign comparator) :: value)
  | .isNull c => .ok (column S style c ++ [.text " IS NULL"])
  | .isNotNull c => .ok (column S style c ++ [.text " IS NOT NULL"])
  | .among c values => do
    let list ← listOperand style c.column values " AND (1 != 1)"
    .ok (column S style c ++ .text " IN " :: list)
  | .notAmong c values => do
    let list ← listOperand style c.column values " OR (1 = 1)"
    .ok (parenthesized (column S style c ++ .text " NOT IN " :: list))
  | .both left right => do
    let l ← filter style left
    let r ← filter style right
    .ok (separated " AND " [bracketed left l, bracketed right r])
  | .either left right => do
    let l ← filter style left
    let r ← filter style right
    .ok (separated " OR " [l, r])
  | .never => .ok [.text "false"]
where
  /-- A part of an "and", in brackets if it is an "or". -/
  bracketed (part : Filter M) (pieces : List (Piece M)) : List (Piece M) :=
    match part with
    | .either _ _ => parenthesized pieces
    | _ => pieces

/-- A filter on its own. -/
def writeFilter [DecidableEq M] (style : Style) (f : Filter M) : Except Fault Written :=
  (filter S style f).map Written.ofPieces

end RowAccess.Sql
