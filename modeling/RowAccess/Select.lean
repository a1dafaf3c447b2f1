import RowAccess.Restriction
import RowAccess.Join.Plan
/-!
# Select statements

A select statement lists what it selects, the conditions on its rows and the outer joins it
carries. Applying rules to it attaches the joins the rules need, each time in a scope of their own,
and adds the filter they compile to.

A statement selects models, single columns, renamed copies, counts and constants. Its conditions are
filters. Its joins are outer joins along relationships, as rules need them; whatever else it reads
stands beside them. It can be ordered by columns and limited to a number of rows. Groups, inner
joins, joins on other conditions, unions, offsets and subqueries are not part of a statement.
-/

namespace RowAccess

/-- An entry of a select list. -/
inductive Selected (M : Type) where
  /-- All columns of a model. -/
  | model (model : M)
  /-- One column. -/
  | column (column : ColumnRef M)
  /-- All columns of a renamed copy of a model. -/
  | renamed (model : M) (slot : Nat)
  /-- The number of rows in which a column is not empty, or of all rows. -/
  | count (column : Option (ColumnRef M))
  /-- A constant, written as it stands. -/
  | constant (text : String)
deriving DecidableEq, Repr

/-- A select statement. `scopes` counts the join sets attached so far. -/
structure Select (M : Type) where
  selected : List (Selected M)
  conditions : List (Filter M) := []
  joins : List (Join M) := []
  scopes : Nat := 0
  distinct : Bool := false
  order : List (ColumnRef M) := []
  limit : Option Int := none
deriving Repr

/-- What an entry of a select list describes: a model, or a renamed copy, for which no rules can be
registered. -/
inductive Described (M : Type) where
  | model (model : M)
  | renamed (model : M)
deriving DecidableEq, Repr

/-- What a source counts as: its model in the model's own role, a renamed copy in any other. -/
def Source.described {M : Type} (source : Source M) : Described M :=
  match source.role with
  | .own => .model source.model
  | .joined _ _ | .renamed _ => .renamed source.model

/-- A statement to which rules were applied, with the joins and the restriction they came to. -/
structure Restricted (M : Type) where
  statement : Select M
  joins : JoinSet M
  restriction : Restriction M

namespace Selected

variable {M : Type}

/-- The source that an entry reads from. -/
def source? : Selected M → Option (Source M)
  | .model m => some (.own m)
  | .column c | .count (some c) => some c.source
  | .renamed m slot => some ⟨m, .renamed slot⟩
  | .count none | .constant _ => none

/-- What an entry describes: the source it reads from. A count of all rows and a constant describe
nothing. -/
def described? (entry : Selected M) : Option (Described M) := entry.source?.map Source.described

end Selected

namespace Select

variable {M : Type}

/-- The statement that selects a model. -/
def ofModel (model : M) : Select M := { selected := [.model model] }

/-- A statement with one more condition. -/
def filteredBy (statement : Select M) (condition : Filter M) : Select M :=
  { statement with conditions := statement.conditions ++ [condition] }

/-- A statement without repeated rows. -/
def deduplicated (statement : Select M) : Select M := { statement with distinct := true }

/-- A statement with the joins of a join set attached. -/
def attach (statement : Select M) (joins : JoinSet M) : Select M :=
  { statement with
    joins := statement.joins ++ joins.joins
    scopes := max statement.scopes (joins.scope + 1) }

/-- A statement under a restriction. -/
def under (statement : Select M) : Restriction M → Select M
  | .filtered filter => statement.filteredBy filter
  | .absent | .lifted _ _ => statement

/-- Everything a list of rules needs joined, in the scope the statement has free. -/
def joinsFor (S : Schema M) (statement : Select M) (model : M) (rules : List Rule)
    (reflector : Reflector M) : JoinSet M × Option Fault :=
  (JoinSet.empty model reflector statement.scopes).addAll S
    (rules.flatMap fun rule => rule.conditions.joinPaths)

/-- Attaches the joins that the rules need and adds their filter. -/
def restrict [DecidableEq M] (S : Schema M) (statement : Select M) (model : M)
    (rules : List Rule) (reflector : Reflector M) : Except Fault (Restricted M) :=
  match statement.joinsFor S model rules reflector with
  | (_, some fault) => .error fault
  | (joins, none) => do
    let restriction ← Rule.compile S model rules (some joins) reflector
    .ok ⟨(statement.attach joins).under restriction, joins, restriction⟩

/-- Restricts a statement by rules and, if wanted, drops the rows that the joins repeat. -/
def applyRules [DecidableEq M] (S : Schema M) (statement : Select M) (model : M)
    (rules : List Rule) (reflector : Reflector M) (distinct : Bool) : Except Fault (Select M) := do
  let restricted ← statement.restrict S model rules reflector
  .ok (if distinct then restricted.statement.deduplicated else restricted.statement)

end Select

end RowAccess
