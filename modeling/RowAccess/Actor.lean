import RowAccess.Fault
import RowAccess.Value.Equality
/-!
# Actors

Who asks for access. Rules read an actor's attributes; nobody has none.
-/

namespace RowAccess

/-- An actor: nobody, a member with the customary attributes, or anything with attributes of its
own. -/
inductive Actor where
  | nobody
  | member (id role organization teams : Value)
  | plain (fields : List (String × Value))
deriving Repr

namespace Actor

/-- A member that administers. -/
def admin (id : Value) : Actor := .member id (.text "admin") .null (.tuple [])

/-- The member that stands for somebody unknown. -/
def anonymous : Actor := .member (.int 0) (.text "anonymous") .null (.tuple [])

/-- The attributes of an actor in order. -/
def fields : Actor → List (String × Value)
  | .nobody => []
  | .member id role organization teams =>
    [("id", id), ("role", role), ("org_id", organization), ("team_ids", teams)]
  | .plain fields => fields

/-- The name of the kind of an actor. -/
def kindName : Actor → String
  | .nobody => "NoneType"
  | .member _ _ _ _ => "MockActor"
  | .plain _ => "types.SimpleNamespace"

/-- An attribute of an actor. -/
def field (a : Actor) (name : String) : Except Fault Value :=
  match a.fields.lookup name with
  | some v => .ok v
  | none => .error (.noAttribute a.kindName name)

/-- Whether an actor can be told from others: it has an `id`. -/
def hasId (a : Actor) : Bool := (a.fields.lookup "id").isSome

/-- An actor spelled out. -/
def describe (a : Actor) : String :=
  let shown := Value.commaSeparated (a.fields.map fun (name, v) => name ++ "=" ++ v.describe)
  match a with
  | .nobody => Value.null.describe
  | .member _ _ _ _ => "MockActor(" ++ shown ++ ")"
  | .plain _ => "namespace(" ++ shown ++ ")"

end Actor

end RowAccess
