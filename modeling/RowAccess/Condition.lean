import RowAccess.Filter
import RowAccess.Join.Set
/-!
# Condition trees

A condition tree is read from a position: a model, the source its columns are read from, and the
path that led there. Scalars and collections become comparisons of a column; a nested tree is read
from the position of the related model. The conditions of one tree all have to hold.
-/

namespace RowAccess

/-- A position in a condition tree, as seen from the root model. Without joins the columns of a
related model are read from its own table. -/
structure Position (M : Type) where
  model : M
  source : Source M
  path : JoinPath
  joins : Option (JoinSet M)
  reflector : Reflector M

namespace Position

variable {M : Type} (S : Schema M)

/-- The reflector that conditions are read with: the one that is given, or else that of the joins,
or else the usual one. -/
def reflectorFor (given : Option (Reflector M)) (joins : Option (JoinSet M))
    (usual : Reflector M) : Reflector M :=
  (given.or (joins.map (·.reflector))).getD usual

/-- The position at the root of a tree. -/
def root (model : M) (joins : Option (JoinSet M)) (reflector : Reflector M) : Position M :=
  ⟨model, .own model, [], joins, reflector⟩

/-- The position reached along a relationship. -/
def descend (p : Position M) (name : Value) : Except Fault (Position M) := do
  let r ← S.relationship p.model name
  let path := p.path ++ [r.name]
  let source ← match p.joins with
    | some joins => joins.sourceFor path
    | none => .ok (.own r.target)
  .ok { p with model := r.target, source := source, path := path }

/-- A column at a position. -/
def column (p : Position M) (name : Value) : Except Fault (ColumnRef M) :=
  (S.column p.model name).map (ColumnRef.mk p.source)

/-- The value of a condition if a column can be compared with it. -/
def checkScalar (key value : Value) : Except Fault Value :=
  if value.isScalar then .ok value else .error (.unsupported key value)

/-- The comparison of the column a key names with a scalar or a collection. All elements of a
collection are checked before any is decoded. -/
def leaf [DecidableEq M] (p : Position M) (comparator : Comparator) (key value : Value) :
    Except Fault (Filter M) := do
  let column ← p.column S key
  let kind ← p.reflector.kind S p.model column.column.key
  match value.elements? with
  | some items =>
    let checked ← items.mapM (checkScalar key)
    let decoded ← checked.mapM kind.decode
    .ok (.membership comparator column decoded)
  | none =>
    let checked ← checkScalar key value
    let decoded ← kind.decode checked
    .ok (.comparison comparator column decoded)

/-- The conjunction of the comparisons of a tree, which must not be empty. -/
def conjunction (p : Position M) (tree : Value) : List (Filter M) → Except Fault (Filter M)
  | [] =>
    let key := match p.path.getLast? with
      | some name => Value.text name
      | none => .null
    .error (.malformedTree key tree (.empty p.path))
  | first :: rest => .ok (.all first rest)

variable [DecidableEq M]

mutual

/-- The comparison that one key of a tree asks for. -/
def comparison (comparator : Comparator) (p : Position M) (key : Value) :
    Value → Except Fault (Filter M)
  | .mapping packing entries =>
    match key.text? with
    | none => .error (.malformedTree key (.mapping packing entries) .keyNotText)
    | some _ => do
      let child ← p.descend S key
      let filters ← comparisons comparator child entries
      child.conjunction (.mapping packing entries) filters
  | value =>
    match key.text? with
    | none => .error (.malformedTree key value .keyNotText)
    | some _ => p.leaf S comparator key value
termination_by structural v => v

/-- The comparisons that the entries of a tree ask for, in order. -/
def comparisons (comparator : Comparator) (p : Position M) :
    List (Value × Value) → Except Fault (List (Filter M))
  | [] => .ok []
  | (key, value) :: rest => do
    let filter ← comparison comparator p key value
    let filters ← comparisons comparator p rest
    .ok (filter :: filters)
termination_by structural v => v

end

/-- The filter that a tree of conditions stands for at a position. -/
def node (comparator : Comparator) (p : Position M) (packing : Packing)
    (entries : List (Value × Value)) : Except Fault (Filter M) := do
  let filters ← comparisons S comparator p entries
  p.conjunction (.mapping packing entries) filters

end Position

end RowAccess
