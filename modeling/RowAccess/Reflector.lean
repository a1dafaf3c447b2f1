import RowAccess.EnumAttribute
/-!
# Reflectors

A reflector answers what a name in a condition means on a model: the related model, the column, and
whether the column is an enumeration. Enumerations come from registrations or else from the model's
own declarations. An answer is remembered until the attribute is registered anew.
-/

namespace RowAccess

/-- How the conditions on an attribute are read. -/
inductive AttributeKind where
  | scalar
  | enumeration (e : EnumAttribute)
deriving Repr

/-- What is stored for a value of a condition on an attribute. -/
def AttributeKind.decode : AttributeKind → Value → Except Fault Value
  | .scalar, value => .ok value
  | .enumeration e, value => e.decode value

/-- What a reflector was told and what it remembers, by model and attribute. -/
structure Reflector (M : Type) where
  registered : List ((M × String) × List (Value × Value)) := []
  remembered : List ((M × String) × AttributeKind) := []

namespace Schema

variable {M : Type} (S : Schema M)

/-- The relationship that a name stands for on a model. -/
def relationship (model : M) (name : Value) : Except Fault (Relationship M) :=
  match name.unhashable? with
  | some typeName => .error (.unhashable typeName)
  | none =>
    match name.text?.bind (S.model model).relationship? with
    | some r => .ok r
    | none => .error (.noRelationship (S.model model).name name)

/-- The column that a name stands for on a model. -/
def column (model : M) (name : Value) : Except Fault Column :=
  match name.unhashable? with
  | some typeName => .error (.unhashable typeName)
  | none =>
    match name.text?.bind (S.model model).column? with
    | some c => .ok c
    | none => .error (.noColumn (S.model model).name name)

end Schema

namespace Reflector

variable {M : Type} (S : Schema M)

/-- A reflector that was told nothing. -/
def empty : Reflector M := {}

/-- The kind of an attribute with the given names. -/
def kindOfNames (model : M) (key : String) (names : List (Value × Value)) : AttributeKind :=
  .enumeration ⟨(S.model model).name, key, names⟩

variable [DecidableEq M]

/-- The kind of an attribute as registrations and declarations have it. -/
def declaredKind (r : Reflector M) (model : M) (key : String) :
    Except Fault AttributeKind :=
  match r.registered.lookup (model, key) with
  | some names => .ok (kindOfNames S model key names)
  | none =>
    match (S.model model).declaration? key with
    | some declaration => declaration.names.map (kindOfNames S model key)
    | none => .ok .scalar

/-- The kind of an attribute: the one remembered for it, or else the declared one. -/
def kind (r : Reflector M) (model : M) (key : String) : Except Fault AttributeKind :=
  match r.remembered.lookup (model, key) with
  | some kind => .ok kind
  | none => declaredKind S r model key

/-- Asks for the kind of an attribute and remembers the answer. -/
def attributeKind (r : Reflector M) (model : M) (key : String) :
    Except Fault AttributeKind × Reflector M :=
  match r.kind S model key with
  | .ok kind => (.ok kind, { r with remembered := ((model, key), kind) :: r.remembered })
  | .error fault => (.error fault, r)

/-- Declares an attribute of a model to be an enumeration. The attribute has to be a column, and a
call that fails changes nothing. -/
def register (r : Reflector M) (model : M) (key : Value) (declaration : Declaration) :
    Except Fault (Reflector M) := do
  let column ← S.column model key
  let names ← declaration.names
  let place := (model, column.key)
  .ok { registered := (place, names) :: r.registered
        remembered := r.remembered.filter fun entry => entry.1 != place }

end Reflector

end RowAccess
