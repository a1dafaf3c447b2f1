import RowAccess.Schema
/-!
# Sources

The places a statement reads rows from: a model's own table, a related model reached along a path
of relationships, or a renamed copy of a table.
-/

namespace RowAccess

/-- The names of the relationships that lead from a root model to a related one. -/
abbrev JoinPath := List String

/-- In which role a statement reads a model. Two joins along one path are told apart by the scope
they belong to. -/
inductive Role where
  | own
  | joined (scope : Nat) (path : JoinPath)
  | renamed (slot : Nat)
deriving DecidableEq, Repr

/-- A model in one of its roles. -/
structure Source (M : Type) where
  model : M
  role : Role
deriving DecidableEq, Repr

/-- A column read from a source. -/
structure ColumnRef (M : Type) where
  source : Source M
  column : Column
deriving DecidableEq, Repr

/-- An outer join: the target holds the rows related to the parent, or one row of absent values if
there are none. -/
structure Join (M : Type) where
  parent : Source M
  relationship : Relationship M
  target : Source M
deriving DecidableEq, Repr

/-- The source of a model in its own role. -/
def Source.own {M : Type} (model : M) : Source M := ⟨model, .own⟩

end RowAccess
