import RowAccess.Database.Affinity
import RowAccess.Sql.Literal
/-!
# Binding values

Values as they are handed to the database. The kind of a value decides what it is stored as, as it
does for constants; a value that cannot be stored as that is refused. A value compared with a column
is then brought to the column's side.
-/

namespace RowAccess

/-- The day a number of days after the first of January 1970. -/
def Date.afterEpoch (days : Int) : Date :=
  let z := days + 719468
  let era := z.fdiv 146097
  let dayOfEra := z.fmod 146097
  let yearOfEra := (dayOfEra - dayOfEra / 1460 + dayOfEra / 36524 - dayOfEra / 146096) / 365
  let dayOfYear := dayOfEra - (365 * yearOfEra + yearOfEra / 4 - yearOfEra / 100)
  let m := (5 * dayOfYear + 2) / 153
  let month := if m < 10 then m + 3 else m - 9
  let year := yearOfEra + era * 400 + (if month ≤ 2 then 1 else 0)
  ⟨year.toNat, month.toNat, (dayOfYear - (153 * m + 2) / 5 + 1).toNat⟩

/-- The point in time that a duration is stored as: so long after the first of January 1970, if that
is in the years from 1 to 9999. -/
def Duration.afterEpoch? (d : Duration) : Option DateTime :=
  if -719162 ≤ d.days ∧ d.days ≤ 2932896 then
    some ⟨Date.afterEpoch d.days,
      ⟨d.seconds / 3600, d.seconds / 60 % 60, d.seconds % 60, d.microseconds, none⟩⟩
  else none

namespace Binding

/-- The double nearest to an integer; an integer beyond the range of doubles has none. -/
def nearest? (n : Int) : Option Binary64 :=
  match Binary64.ofInt n with
  | .infinite _ => none
  | x => some x

/-- A value as a double: numbers are rounded to the nearest one, texts and ASCII byte strings have
to spell one out. -/
def double? (v : Value) : Option Binary64 :=
  match v, v.int?, v.text? with
  | .bool b, _, _ => some (.ofInt b.toInt)
  | .float x, _, _ => some x
  | .decimal (.finite negative coefficient exponent), _, _ =>
    some (.ofNumeral (.finite negative coefficient exponent))
  | .decimal (.infinite negative), _, _ => some (.infinite negative)
  | .decimal (.undefined _ signaling), _, _ => if signaling then none else some .undefined
  | .bytes content, _, _ | .buffer content, _, _ =>
    if content.all (· < 128) then
      Binary64.ofText? (String.ofList (content.map fun b => Char.ofNat b.toNat))
    else none
  | _, some n, _ => nearest? n
  | _, _, some s => Binary64.ofText? s
  | _, _, _ => none

/-- An integer as it is stored, in 64 bits. -/
def integer (n : Int) : Except Fault Cell :=
  if Cell.Fits n then .ok (.int n) else .error .integerTooLarge

/-- A value stored without any conversion. Days and points in time are stored as their ISO texts. -/
def unconverted (v : Value) : Except Fault Cell :=
  match v, v.int?, v.text? with
  | .bool b, _, _ => .ok (.int b.toInt)
  | .float x, _, _ => .ok (.ofDouble x)
  | .bytes content, _, _ | .buffer content, _, _ => .ok (.blob content)
  | .date d, _, _ => .ok (.text d.text)
  | .dateTime t, _, _ => .ok (.text (t.text " "))
  | _, some n, _ => integer n
  | _, _, some s => .ok (.text s)
  | _, _, _ => .error .unbindable

/-- The cell that a value is converted to for a column type; integers and texts are not
converted. -/
def converted? (type : ColumnType) (v : Value) : Option Cell :=
  match type, v with
  | .boolean, v => (Sql.asBoolean? v).map fun b => .int b.toInt
  | .float, v | .numeric, v => (double? v).map .ofDouble
  | .date, .date d => some (.text d.text)
  | .date, .dateTime t => some (.text t.date.text)
  | .dateTime, .dateTime t => some (.text t.stored)
  | .dateTime, .date d => some (.text (DateTime.mk d ⟨0, 0, 0, 0, none⟩).stored)
  | .time, .time t => some (.text t.stored)
  | .interval, .duration d => d.afterEpoch?.map fun t => .text t.stored
  | .uuid, .uuid u => some (.text u.hex)
  | .binary, .bytes content | .binary, .buffer content => some (.blob content)
  | .choice options, v => (Sql.option? options v).map .text
  | _, _ => none

/-- A value as a parameter of the given type. -/
def parameter (type : ColumnType) (v : Value) : Except Fault Cell :=
  match type with
  | .integer | .text => unconverted v
  | type =>
    match converted? type v with
    | some cell => .ok cell
    | none => .error .unbindable

/-- What a column is compared with for a single value. -/
def single (c : Column) (v : Value) : Except Fault Cell :=
  match v with
  | .null => .ok .null
  | .bool b => .ok (c.affinity.adapt (.int b.toInt))
  | v => (parameter (Sql.writtenType c.type v) v).map c.affinity.adapt

/-- What a column is compared with for each value of a list; the first decides the type of all. -/
def list (c : Column) (values : List Value) : Except Fault (List Cell) :=
  match values with
  | [] => .ok []
  | first :: _ =>
    values.mapM fun v => (parameter (Sql.writtenType c.type first) v).map c.affinity.adapt

end Binding

end RowAccess
