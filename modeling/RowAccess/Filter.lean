import RowAccess.Source
import RowAccess.Value
/-!
# Filters

The expressions that rules compile to: comparisons of single columns with values, put together with
"and" and "or". These are also the conditions that a statement can have before rules are applied to
it. Comparisons of two columns with each other, orders, patterns, negations, functions, casts and
subqueries are no filters.
-/

namespace RowAccess

/-- How a column is compared with a value. -/
inductive Comparator where
  /-- The column has the value; the comparison of allow rules. -/
  | equal
  /-- The column has another value or none; the comparison of deny rules. -/
  | distinct
  /-- The column has another value. -/
  | unequal
deriving DecidableEq, Repr

/-- An expression over the columns of sources. A column is compared with one value, or looked for in
a list of values; the lists of filters that rules compile to hold present values only. -/
inductive Filter (M : Type) where
  | compare (comparator : Comparator) (column : ColumnRef M) (value : Value)
  | isNull (column : ColumnRef M)
  | isNotNull (column : ColumnRef M)
  | among (column : ColumnRef M) (values : List Value)
  | notAmong (column : ColumnRef M) (values : List Value)
  | both (left right : Filter M)
  | either (left right : Filter M)
  /-- The expression that no row satisfies. -/
  | never
deriving Repr

namespace Filter

variable {M : Type}

/-- The comparison of a column with a single value. Equality with the absent value asks whether
the column is empty. -/
def comparison (comparator : Comparator) (column : ColumnRef M) (value : Value) : Filter M :=
  match comparator, value with
  | .equal, .null => .isNull column
  | .unequal, .null => .isNotNull column
  | _, _ => .compare comparator column value

/-- The comparison of a column with a collection. The absent value is never found in a collection,
so as an element it becomes a question of its own. -/
def membership (comparator : Comparator) (column : ColumnRef M) (values : List Value) : Filter M :=
  let present := values.filter fun v => !v.isNull
  let withNull := values.any Value.isNull
  match comparator, withNull with
  | .equal, false => .among column present
  | .equal, true => .either (.isNull column) (.among column present)
  | _, true => .both (.isNotNull column) (.notAmong column present)
  | _, false => .either (.isNull column) (.notAmong column present)

/-- Whether a filter is the one that no row satisfies. -/
def isNever : Filter M → Bool
  | .never => true
  | _ => false

/-- All the given filters together. -/
def all (first : Filter M) (rest : List (Filter M)) : Filter M := rest.foldl .both first

end Filter

end RowAccess
