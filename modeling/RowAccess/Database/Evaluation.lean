import RowAccess.Database
import RowAccess.Database.Binding
import RowAccess.Layout
/-!
# Running statements

The rows a statement selects from a database. Each chain of tables yields assignments of rows to
sources; the conditions keep those for which they are true, and the select list is read off what
is left. Repeated rows are dropped before the rows are ordered and cut off.
-/

namespace RowAccess

/-- A choice of one row for every source that is read; a joined source may have none. -/
abbrev Assignment (M : Type) := Source M → Option Row

/-- What a statement yields at one place of its select list. -/
inductive Field (M : Type) where
  /-- A row of a model, known by its primary key. -/
  | row (model : M) (key : List Cell)
  | value (v : Value)
deriving Repr

namespace Assignment

variable {M : Type}

/-- An assignment with one source assigned anew. -/
def set [DecidableEq M] (a : Assignment M) (source : Source M) (row : Option Row) :
    Assignment M := fun s => if s == source then row else a s

@[simp] theorem set_same [DecidableEq M] (a : Assignment M) (source : Source M) (row : Option Row) :
    a.set source row source = row := by
  simp [set]

theorem set_other [DecidableEq M] (a : Assignment M) {source other : Source M}
    (row : Option Row) (different : other ≠ source) : a.set source row other = a other := by
  simp [set, different]

/-- An assignment can be put together from one on some sources and another on all others. -/
theorem exists_pieced (inside : Source M → Prop) (a b : Assignment M) :
    ∃ c : Assignment M, (∀ s, inside s → c s = a s) ∧ ∀ s, ¬ inside s → c s = b s := by
  classical
  exact ⟨fun s => if inside s then a s else b s, fun s hs => if_pos hs, fun s hs => if_neg hs⟩

/-- What a column holds; every column of a source without a row is empty. -/
def read (a : Assignment M) (c : ColumnRef M) : Cell :=
  match a c.source with
  | none => .null
  | some row =>
    match c.column.factor with
    | none => row c.column.name
    | some factor => (row c.column.name).scale factor

end Assignment

namespace Filter

variable {M : Type}

/-- What a value is compared as; a value that the database does not take is compared as nothing. -/
def operand (c : ColumnRef M) (v : Value) : Cell := (Binding.single c.column v).toOption.getD .null

/-- What the values of a list are compared as. -/
def operands (c : ColumnRef M) (values : List Value) : List Cell :=
  (Binding.list c.column values).toOption.getD []

/-- Whether a filter is true under an assignment. -/
def truth (a : Assignment M) : Filter M → Truth
  | .compare .equal c v => (a.read c).equal (operand c v)
  | .compare .distinct c v => some (!(a.read c).same (operand c v))
  | .compare .unequal c v => ((a.read c).equal (operand c v)).negate
  | .isNull c => some (a.read c).isNull
  | .isNotNull c => some (!(a.read c).isNull)
  | .among c values => .any ((operands c values).map (a.read c).equal)
  | .notAmong c values => (Truth.any ((operands c values).map (a.read c).equal)).negate
  | .both left right => (truth a left).both (truth a right)
  | .either left right => (truth a left).either (truth a right)
  | .never => some false

/-- Whether a filter keeps an assignment: an unknown truth does not. -/
def holds (a : Assignment M) (f : Filter M) : Bool := f.truth a == some true

@[simp] theorem holds_both (a : Assignment M) (left right : Filter M) :
    (Filter.both left right).holds a = (left.holds a && right.holds a) := by
  rw [Bool.eq_iff_iff]
  simp [holds, truth]

@[simp] theorem holds_either (a : Assignment M) (left right : Filter M) :
    (Filter.either left right).holds a = (left.holds a || right.holds a) := by
  rw [Bool.eq_iff_iff]
  simp [holds, truth]

@[simp] theorem holds_never (a : Assignment M) : (Filter.never : Filter M).holds a = false := rfl

/-- Whether the database takes all values of a filter. -/
def checkValues : Filter M → Except Fault Unit
  | .compare _ c v => (Binding.single c.column v).map fun _ => ()
  | .among c values | .notAmong c values => (Binding.list c.column values).map fun _ => ()
  | .both left right | .either left right => do
    checkValues left
    checkValues right
  | .isNull _ | .isNotNull _ | .never => .ok ()

end Filter

namespace Database

variable {M : Type} [DecidableEq M] (db : Database M)

/-- The ways to extend an assignment by an outer join: a related row for each, or none at all if
the parent is missing or has no related row. -/
def extendBy (j : Join M) (a : Assignment M) : List (Assignment M) :=
  match (a j.parent).toList.flatMap (db.related j.relationship) with
  | [] => [a.set j.target none]
  | rows => rows.map fun row => a.set j.target (some row)

theorem extendBy_ne_nil (j : Join M) (a : Assignment M) : db.extendBy j a ≠ [] := by
  unfold extendBy
  split
  · simp
  · rename_i found
    intro empty
    exact found (List.map_eq_nil_iff.1 empty)

/-- The ways to extend an assignment by several outer joins, one after the other. -/
def extendByAll (joins : List (Join M)) (a : Assignment M) : List (Assignment M) :=
  joins.foldl (fun assignments j => assignments.flatMap (db.extendBy j)) [a]

/-- The ways to extend an assignment by a chain: any row of the root, and what it is joined to. -/
def extendByChain (chain : Chain M) (a : Assignment M) : List (Assignment M) :=
  (db.rows chain.root.model).flatMap fun row =>
    db.extendByAll chain.joins (a.set chain.root (some row))

/-- The assignments of rows to the sources of chains, every combination of them. -/
def assignments (chains : List (Chain M)) : List (Assignment M) :=
  chains.foldl (fun found chain => found.flatMap (db.extendByChain chain)) [fun _ => none]

end Database

/-- The value of a cell in a column. -/
def Cell.value (type : ColumnType) : Cell → Value
  | .null => .null
  | .int n => if type == .boolean then .bool (n != 0) else .int n
  | .real x => .float x
  | .text s => .text s
  | .blob content => .bytes content

/-- The cell that a constant stands for: a number or a quoted text. -/
def Cell.ofConstant (text : String) : Cell :=
  match text.toList with
  | '\'' :: rest => .text (String.ofList rest.dropLast)
  | _ =>
    match text.toInt? with
    | some n => .int n
    | none => .null

namespace Selected

variable {M : Type}

/-- The columns of a source. -/
def columnsOf (S : Schema M) (source : Source M) : List (ColumnRef M) :=
  (S.model source.model).columns.map (ColumnRef.mk source)

/-- The primary key columns of a source. -/
def keyOf (S : Schema M) (source : Source M) : List (ColumnRef M) :=
  (columnsOf S source).filter fun c => (S.model source.model).primaryKey.contains c.column.key

/-- The cells of an entry of a select list; an entry that counts has none. -/
def cells (S : Schema M) (a : Assignment M) : Selected M → List Cell
  | .model m => (columnsOf S (.own m)).map a.read
  | .renamed m slot => (columnsOf S ⟨m, .renamed slot⟩).map a.read
  | .column c => [a.read c]
  | .constant text => [.ofConstant text]
  | .count _ => []

/-- What an entry of a select list yields, given how many assignments it counts. -/
def field (S : Schema M) (a : Assignment M) (counted : ColumnRef M → Nat) (all : Nat) :
    Selected M → Field M
  | .model m => .row m ((keyOf S (.own m)).map a.read)
  | .renamed m slot => .row m ((keyOf S ⟨m, .renamed slot⟩).map a.read)
  | .column c => .value ((a.read c).value c.column.type)
  | .constant text => .value ((Cell.ofConstant text).value .text)
  | .count (some c) => .value (.int (counted c))
  | .count none => .value (.int all)

/-- Whether an entry counts. -/
def isCount : Selected M → Bool
  | .count _ => true
  | _ => false

end Selected

/-- The elements of a list without those that repeat an earlier one. -/
def firstOccurrences {α β : Type} [BEq β] (key : α → β) (seen : List β) : List α → List α
  | [] => []
  | x :: rest =>
    if seen.contains (key x) then firstOccurrences key seen rest
    else x :: firstOccurrences key (key x :: seen) rest

namespace Select

variable {M : Type}

/-- Whether a statement counts rows instead of listing them. -/
def counts (s : Select M) : Bool := s.selected.any Selected.isCount

/-- The cells of a select list. -/
def cells (S : Schema M) (s : Select M) (a : Assignment M) : List Cell :=
  s.selected.flatMap (Selected.cells S a)

/-- The assignments that satisfy all conditions. -/
def satisfying [DecidableEq M] (db : Database M) (s : Select M) (chains : List (Chain M)) :
    List (Assignment M) :=
  (db.assignments chains).filter fun a => s.conditions.all fun f => f.holds a

/-- The assignments without those that repeat the cells of an earlier one, if that is asked for. -/
def withoutRepetitions (S : Schema M) (s : Select M) (found : List (Assignment M)) :
    List (Assignment M) :=
  if s.distinct then firstOccurrences (s.cells S) [] found else found

/-- The assignments in the order of the statement. -/
def ordered (s : Select M) (found : List (Assignment M)) : List (Assignment M) :=
  if s.order.isEmpty then found
  else
    let key (a : Assignment M) : List Cell := s.order.map a.read
    found.mergeSort fun a b => !Cell.lessThan (key b) (key a)

/-- As many elements as the limit allows; a negative limit is none. -/
def limited {α : Type} (s : Select M) (found : List α) : List α :=
  match s.limit with
  | some n => if n < 0 then found else found.take n.toNat
  | none => found

/-- What one assignment yields. -/
def fields (S : Schema M) (s : Select M) (counted : ColumnRef M → Nat) (all : Nat)
    (a : Assignment M) : List (Field M) :=
  s.selected.map (Selected.field S a counted all)

/-- What a statement yields from the assignments that satisfy its conditions. A statement that
counts yields one row. -/
def resultOf (S : Schema M) (s : Select M) (found : List (Assignment M)) : List (List (Field M)) :=
  if s.counts then
    let counted (c : ColumnRef M) := found.countP fun a => !(a.read c).isNull
    s.limited [s.fields S counted found.length (found.getLast?.getD fun _ => none)]
  else
    (s.limited (s.ordered (s.withoutRepetitions S found))).map (s.fields S (fun _ => 0) 0)

/-- Whether the database takes the limit of a statement, which is handed over like any value. -/
def checkLimit (s : Select M) : Except Fault Unit :=
  match s.limit with
  | some n => (Binding.integer n).map fun _ => ()
  | none => .ok ()

/-- Whether the database takes the values of a statement's conditions. A condition that no row
satisfies makes the others pointless, and then none of their values is handed over. -/
def checkConditions (s : Select M) : Except Fault Unit :=
  if s.conditions.any Filter.isNever then .ok () else s.conditions.forM Filter.checkValues

/-- Runs a statement. -/
def run [DecidableEq M] (S : Schema M) (db : Database M) (s : Select M) :
    Except Fault (List (List (Field M))) := do
  let chains ← Layout.chains s
  s.checkConditions
  s.checkLimit
  .ok (s.resultOf S (s.satisfying db chains))

end Select

end RowAccess
