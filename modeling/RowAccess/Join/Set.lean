import RowAccess.Reflector
import RowAccess.Source
/-!
# Join sets

The outer joins gathered for one root model. Every joined path has a source of its own, so two
paths that reach the same table stay apart; a path is joined after its parent and only once.
-/

namespace RowAccess

/-- A joined path: the model it starts its last step from, and the relationship of that step. -/
structure Joined (M : Type) where
  path : JoinPath
  parent : M
  relationship : Relationship M
deriving DecidableEq, Repr

/-- The joins gathered for a root model, in the order they will be attached. -/
structure JoinSet (M : Type) where
  model : M
  reflector : Reflector M
  scope : Nat
  joined : List (Joined M)

namespace JoinSet

variable {M : Type}

/-- The join set of a model with nothing joined. -/
def empty (model : M) (reflector : Reflector M) (scope : Nat) : JoinSet M :=
  ⟨model, reflector, scope, []⟩

/-- The joined paths in order. -/
def paths (joins : JoinSet M) : List JoinPath := joins.joined.map (·.path)

/-- How many paths are joined. -/
def size (joins : JoinSet M) : Nat := joins.joined.length

/-- What is joined along a path. -/
def find? (joins : JoinSet M) (path : JoinPath) : Option (Joined M) :=
  joins.joined.find? fun j => j.path == path

/-- Joins a path unless it is joined already. -/
def insert (joins : JoinSet M) (j : Joined M) : JoinSet M :=
  match joins.find? j.path with
  | some _ => joins
  | none => { joins with joined := joins.joined ++ [j] }

theorem find?_eq_none_iff {joins : JoinSet M} {path : JoinPath} :
    joins.find? path = none ↔ path ∉ joins.paths := by
  simp only [find?, paths, List.find?_eq_none, List.mem_map, beq_iff_eq, not_exists, not_and]

theorem insert_of_mem {joins : JoinSet M} {j : Joined M} (joined : j.path ∈ joins.paths) :
    joins.insert j = joins := by
  unfold insert
  split
  · rfl
  · rename_i absent
    exact absurd joined (find?_eq_none_iff.1 absent)

theorem paths_insert_of_not_mem {joins : JoinSet M} {j : Joined M}
    (absent : j.path ∉ joins.paths) : (joins.insert j).paths = joins.paths ++ [j.path] := by
  simp [insert, find?_eq_none_iff.2 absent, paths]

/-- Joins step by step along the names that follow a path reaching `model`. The steps before a name
that is no relationship stay joined. -/
def extend (S : Schema M) (done : JoinPath) (model : M) :
    List Value → JoinSet M → JoinSet M × Option Fault
  | [], joins => (joins, none)
  | name :: rest, joins =>
    match S.relationship model name with
    | .error fault => (joins, some fault)
    | .ok r =>
      let path := done ++ [r.name]
      extend S path r.target rest (joins.insert ⟨path, model, r⟩)

/-- Makes sure that a path is joined, parents first. -/
def add (S : Schema M) (joins : JoinSet M) (path : List Value) : JoinSet M × Option Fault :=
  match Value.unhashableIn? path with
  | some typeName => (joins, some (.unhashable typeName))
  | none => extend S [] joins.model path joins

/-- Makes sure that all paths are joined, up to the first that cannot be. -/
def addAll (S : Schema M) (joins : JoinSet M) : List (List Value) → JoinSet M × Option Fault
  | [] => (joins, none)
  | path :: rest =>
    match joins.add S path with
    | (joins, some fault) => (joins, some fault)
    | (joins, none) => addAll S joins rest

/-- The path written by a list of values, if they are all texts. -/
def pathOf? (path : List Value) : Option JoinPath := path.mapM Value.text?

/-- What is joined along a path of values. -/
def findValues (joins : JoinSet M) (path : List Value) : Except Fault (Option (Joined M)) :=
  match Value.unhashableIn? path with
  | some typeName => .error (.unhashable typeName)
  | none => .ok ((pathOf? path).bind joins.find?)

/-- Whether a path is joined; the empty path always is. -/
def contains (joins : JoinSet M) (path : List Value) : Except Fault Bool :=
  if path.isEmpty then .ok true else (joins.findValues path).map Option.isSome

/-- The model reached along a path. -/
def modelFor (joins : JoinSet M) (path : List Value) : Except Fault M :=
  if path.isEmpty then .ok joins.model
  else do
    match ← joins.findValues path with
    | some j => .ok j.relationship.target
    | none => .error (.unknownPath path)

/-- The source that stands for what is joined along a path. -/
def sourceOf (joins : JoinSet M) (j : Joined M) : Source M :=
  ⟨j.relationship.target, .joined joins.scope j.path⟩

/-- The source that the columns at a path are read from. -/
def sourceFor (joins : JoinSet M) (path : JoinPath) : Except Fault (Source M) :=
  if path.isEmpty then .ok (.own joins.model)
  else
    match joins.find? path with
    | some j => .ok (joins.sourceOf j)
    | none => .error (.notJoined path)

/-- The first element of a path that is not a text. -/
def nonText? (position : Nat) : List Value → Option (Nat × Value)
  | [] => none
  | v :: rest => if v.text?.isSome then nonText? (position + 1) rest else some (position, v)

/-- The source that the columns at a path of values are read from. -/
def aliasFor (joins : JoinSet M) (path : List Value) : Except Fault (Source M) :=
  match Value.unhashableIn? path, nonText? 0 path with
  | some typeName, _ => .error (.unhashable typeName)
  | none, some (position, v) => .error (.pathElement position v.typeName)
  | none, none => joins.sourceFor (path.filterMap Value.text?)

/-- The source a joined path starts its last step from. -/
def parentOf (joins : JoinSet M) (j : Joined M) : Source M :=
  match j.path.dropLast with
  | [] => .own j.parent
  | parents => ⟨j.parent, .joined joins.scope parents⟩

/-- The outer joins that attach everything joined, in order. -/
def joins (joins : JoinSet M) : List (Join M) :=
  joins.joined.map fun j => ⟨joins.parentOf j, j.relationship, joins.sourceOf j⟩

end JoinSet

end RowAccess
