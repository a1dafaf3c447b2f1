import RowAccess.Calendar
import RowAccess.Enumeration
import RowAccess.Number.Binary64
import RowAccess.Number.Decimal
import RowAccess.Uuid
/-!
# Condition values

The values that rules put into their conditions. A rule may hand over anything, so the type also
holds what no column can be compared with; `isScalar`, `elements?` and `entries?` tell apart what a
condition can use.
-/

namespace RowAccess

/-- The ways a mapping can be packed; they hold the same entries and differ in their names only. -/
inductive Packing where
  | plain
  | readOnly
  | wrapped
deriving DecidableEq, Repr

/-- A value of a condition tree. The entries of a mapping keep the order they were written in. -/
inductive Value where
  | null
  | bool (b : Bool)
  | int (n : Int)
  | float (x : Binary64)
  | decimal (d : Decimal)
  | text (s : String)
  | bytes (content : List UInt8)
  | buffer (content : List UInt8)
  | date (d : Date)
  | dateTime (t : DateTime)
  | time (t : TimeOfDay)
  | duration (d : Duration)
  | uuid (u : Uuid)
  | member (m : Member)
  | list (items : List Value)
  | tuple (items : List Value)
  | set (items : List Value)
  | frozenSet (items : List Value)
  | range (start stop step : Int)
  | foreign (label : String)
  | mapping (packing : Packing) (entries : List (Value × Value))
deriving Repr, Inhabited

namespace Value

/-- A mapping of the plain kind. -/
abbrev plain (entries : List (Value × Value)) : Value := .mapping .plain entries

/-- The entries of a mapping, whatever its packing. -/
def entries? : Value → Option (List (Value × Value))
  | .mapping _ entries => some entries
  | _ => none

/-- The elements of a collection that a column can be looked for in. -/
def elements? : Value → Option (List Value)
  | .list items | .tuple items | .set items | .frozenSet items => some items
  | _ => none

/-- Whether a column can be compared with the value itself. -/
def isScalar : Value → Bool
  | .null | .bool _ | .int _ | .float _ | .decimal _ | .text _ | .bytes _ | .date _ | .dateTime _
  | .time _ | .duration _ | .uuid _ | .member _ => true
  | _ => false

/-- Whether a value is the absent one. -/
def isNull : Value → Bool
  | .null => true
  | _ => false

/-- The text a value is, if it is one: members that carry a text count as that text. -/
def text? : Value → Option String
  | .text s => some s
  | .member ⟨_, _, .text s⟩ => some s
  | _ => none

/-- The integer a value is, if it is one: members that carry a number count as that number, and
truth values do not count. -/
def int? : Value → Option Int
  | .int n => some n
  | .member ⟨_, _, .number n⟩ => some n
  | _ => none

/-- The quantity a value stands for in comparisons of numbers; truth values count as 0 and 1. -/
def quantity? : Value → Option Exact
  | .bool b => some (.ofInt b.toInt)
  | .int n => some (.ofInt n)
  | .float x => some x.exact
  | .decimal d => some d.exact
  | .member ⟨_, _, .number n⟩ => some (.ofInt n)
  | _ => none

/-- How many numbers a range runs through. -/
def rangeLength (start stop step : Int) : Nat :=
  if 0 < step then ((stop - start + step - 1) / step).toNat
  else if step < 0 then ((start - stop - step - 1) / (-step)).toNat
  else 0

/-- Whether a value counts as true: absent, zero and empty values do not. -/
def truthy : Value → Bool
  | .null => false
  | .bool b => b
  | .int n => n != 0
  | .float x => x.truthy
  | .decimal d => d.truthy
  | .text s => s != ""
  | .bytes content | .buffer content => !content.isEmpty
  | .duration d => d.truthy
  | .member ⟨_, _, .number n⟩ => n != 0
  | .member ⟨_, _, .text s⟩ => s != ""
  | .list items | .tuple items | .set items | .frozenSet items => !items.isEmpty
  | .range start stop step => rangeLength start stop step != 0
  | .mapping _ entries => !entries.isEmpty
  | .date _ | .dateTime _ | .time _ | .uuid _ | .member _ | .foreign _ => true

/-- The name of the kind of a value. -/
def typeName : Value → String
  | .null => "NoneType"
  | .bool _ => "bool"
  | .int _ => "int"
  | .float _ => "float"
  | .decimal _ => "Decimal"
  | .text _ => "str"
  | .bytes _ => "bytes"
  | .buffer _ => "bytearray"
  | .date _ => "date"
  | .dateTime _ => "datetime"
  | .time _ => "time"
  | .duration _ => "timedelta"
  | .uuid _ => "UUID"
  | .member m => m.enumeration
  | .list _ => "list"
  | .tuple _ => "tuple"
  | .set _ => "set"
  | .frozenSet _ => "frozenset"
  | .range _ _ _ => "range"
  | .foreign _ => "Opaque"
  | .mapping .plain _ => "dict"
  | .mapping .readOnly _ => "mappingproxy"
  | .mapping .wrapped _ => "UserDict"

/-- The name of the kind of a value with the family it belongs to, where it has one. -/
def familyName : Value → String
  | .date _ => "datetime.date"
  | .dateTime _ => "datetime.datetime"
  | .time _ => "datetime.time"
  | .duration _ => "datetime.timedelta"
  | .decimal _ => "decimal.Decimal"
  | v => v.typeName

/-- The value that the content of a member is by itself. -/
def ofContent : Content → Value
  | .number n => .int n
  | .text s | .label s => .text s

/-- The numbers a range runs through. -/
def rangeItems (start stop step : Int) : List Value :=
  (List.range (rangeLength start stop step)).map fun (i : Nat) => .int (start + step * i)

/-- What is met when going through a value: the elements of a collection, the keys of a mapping,
the characters of a text, the numbers of a byte string. Single values cannot be gone through. -/
def iterate? : Value → Option (List Value)
  | .list items | .tuple items | .set items | .frozenSet items => some items
  | .mapping _ entries => some (entries.map (·.1))
  | .bytes content | .buffer content => some (content.map fun b => .int b.toNat)
  | .range start stop step => some (rangeItems start stop step)
  | v => v.text?.map fun s => s.toList.map fun c => .text c.toString

mutual

/-- The kind of value that keeps this one from being a key: collections that may change cannot be
keys, and neither can a tuple that holds one. -/
def unhashable? : Value → Option String
  | .list _ => some "list"
  | .set _ => some "set"
  | .buffer _ => some "bytearray"
  | .mapping .plain _ => some "dict"
  | .mapping .readOnly _ => some "mappingproxy"
  | .mapping .wrapped _ => some "UserDict"
  | .tuple items => unhashableIn? items
  | _ => none
termination_by structural v => v

/-- The first kind of value among these that cannot be a key. -/
def unhashableIn? : List Value → Option String
  | [] => none
  | v :: rest => (unhashable? v).or (unhashableIn? rest)
termination_by structural v => v

end

end Value

end RowAccess
