import RowAccess.Sql.Expression
/-!
# Written select lists

The columns a statement selects. A name that is taken gets a number: `name_1` for another column of
that name, `name__1` for the same column once more. Computed columns have no name of their own.
-/

namespace RowAccess.Sql

variable {M : Type} [DecidableEq M]

/-- A column of the result. A column may be selected by itself or as part of its model. -/
inductive Output (M : Type) where
  | column (c : ColumnRef M) (single : Bool)
  | count (c : Option (ColumnRef M))
  | constant (text : String)
deriving DecidableEq, Repr

/-- The columns of a source that are not among those given. -/
def remainingColumns (S : Schema M) (source : Source M) (selected : List (ColumnRef M)) :
    List (ColumnRef M) :=
  ((S.model source.model).columns.map (ColumnRef.mk source)).filter fun c => !selected.contains c

/-- The columns of the result from an entry on. A model leaves out the columns that are selected
already; a single column is selected however often it is listed. -/
def outputsFrom (S : Schema M) (selected : List (ColumnRef M)) :
    List (Selected M) → List (Output M)
  | [] => []
  | .column c :: rest => .column c true :: outputsFrom S (c :: selected) rest
  | .count c :: rest => .count c :: outputsFrom S selected rest
  | .constant text :: rest => .constant text :: outputsFrom S selected rest
  | .model m :: rest =>
    let new := remainingColumns S (.own m) selected
    new.map (.column · false) ++ outputsFrom S (new ++ selected) rest
  | .renamed m slot :: rest =>
    let new := remainingColumns S ⟨m, .renamed slot⟩ selected
    new.map (.column · false) ++ outputsFrom S (new ++ selected) rest

/-- The names taken in a select list: by which column, and which columns go by a number. -/
structure Taken (M : Type) where
  names : List (String × ColumnRef M) := []
  numbered : List (ColumnRef M) := []

/-- The label of a column, and the names taken after it. -/
def Taken.label (taken : Taken M) (c : ColumnRef M) (single : Bool) :
    List (Piece M) × Taken M :=
  let numbered (base : String) : List (Piece M) := [.text " AS ", .label base]
  if c.column.factor.isSome && !single then
    if taken.numbered.contains c then (numbered "anon_", taken)
    else (numbered "anon", { taken with numbered := c :: taken.numbered })
  else
    let (name, plain) := match c.column.factor with
      | none => (c.column.name, [])
      | some _ => (c.column.key, [.text (" AS " ++ identifier c.column.key)])
    match taken.names.lookup name with
    | none => (plain, { taken with names := (name, c) :: taken.names })
    | some holder =>
      if holder == c || taken.numbered.contains c then (numbered (name ++ "_"), taken)
      else (numbered name, { taken with numbered := c :: taken.numbered })

/-- The columns of a result, each with its label. -/
def outputs (S : Schema M) (style : Style) (taken : Taken M) :
    List (Output M) → List (List (Piece M))
  | [] => []
  | .column c single :: rest =>
    let (label, taken) := taken.label c single
    (column S style c ++ label) :: outputs S style taken rest
  | .count c :: rest =>
    let counted := match c with
      | some c => column S style c
      | none => [.text "*"]
    (.text "count(" :: counted ++ [.text ") AS ", .label "count"]) :: outputs S style taken rest
  | .constant text :: rest => [.text text] :: outputs S style taken rest

end RowAccess.Sql
