import RowAccess.Fault
import RowAccess.Schema
import RowAccess.Value.Equality
/-!
# Constants

Values written as constants of a statement. The kind of the value decides how it is written; only
members of enumerations, which have no kind of their own, are written the way of the column they
are compared with.
-/

namespace RowAccess.Sql

/-- The column type that a value has by itself; members of enumerations have none. -/
def naturalType? : Value → Option ColumnType
  | .bool _ => some .boolean
  | .int _ => some .integer
  | .float _ => some .float
  | .decimal _ => some .numeric
  | .text _ => some .text
  | .bytes _ => some .binary
  | .date _ => some .date
  | .dateTime _ => some .dateTime
  | .time _ => some .time
  | .duration _ => some .interval
  | .uuid _ => some .uuid
  | _ => none

/-- The type that a value is written in when it is compared with a column: its own, except that the
columns of identifiers, of byte strings and of choices take texts as their own. -/
def writtenType (column : ColumnType) (v : Value) : ColumnType :=
  match naturalType? v, column with
  | none, _ => column
  | some .text, .uuid => .uuid
  | some .text, .binary => .binary
  | some .text, .choice options => .choice options
  | some type, _ => type

/-- The integer that a value is written as among integers. -/
def asInteger? : Value → Option Int
  | .bool b => some b.toInt
  | .float x => x.exact.truncate?
  | .decimal d => d.exact.truncate?
  | v => v.int?

/-- The truth value that a value is written as among truth values: 0 and 1 are the only numbers
that stand for one. -/
def asBoolean? (v : Value) : Option Bool :=
  match v.quantity? with
  | some x =>
    if x.equals (.ofInt 0) then some false else if x.equals (.ofInt 1) then some true else none
  | none => none

/-- The text that a value is written as among the options of a choice: a name of theirs, the name of
the member that the value equals, or any other text as it is. -/
def option? (options : Enumeration) (v : Value) : Option String :=
  let named := v.text?.filter fun s => options.ownMembers.any fun m => m.name == s
  let equal := options.ownMembers.find? fun m => (Value.member m).equals v
  named.or ((equal.map (·.name)).or v.text?)

/-- The text of a truth value. -/
def boolean (b : Bool) : String := if b then "true" else "false"

/-- A value as a constant of the given type, if it can be written as one. -/
def constant? (type : ColumnType) (v : Value) : Option String :=
  match type, v with
  | .integer, v => (asInteger? v).map toString
  | .boolean, v => (asBoolean? v).map boolean
  | .float, v | .numeric, v => some v.plainText
  | .text, v => v.text?.map Text.sqlQuoted
  | .binary, .bytes content =>
    (String.fromUTF8? ⟨content.toArray⟩).map Text.sqlQuoted
  | .date, .date d => some (Text.sqlQuoted d.text)
  | .dateTime, .dateTime t => some (Text.sqlQuoted (t.text " "))
  | .time, .time t => some (Text.sqlQuoted t.text)
  | .uuid, .uuid u => some (Text.sqlQuoted u.hex)
  | .choice options, v => (option? options v).map Text.sqlQuoted
  | _, _ => none

/-- A value as a constant of the given type. -/
def constant (type : ColumnType) (v : Value) : Except Fault String :=
  match constant? type v with
  | some text => .ok text
  | none => .error .unwritable

/-- Values as constants of one type: that of the first. -/
def constants (column : ColumnType) (values : List Value) : Except Fault (List String) :=
  match values with
  | [] => .ok []
  | first :: _ => values.mapM (constant (writtenType column first))

end RowAccess.Sql
