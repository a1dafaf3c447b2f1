import RowAccess.Accessible
import RowAccess.Database.Evaluation
import RowAccess.Sql.Statement
/-!
# Expectations

Checks of what an actor can reach: that there are rows, that there are none, which rows they are,
and what the restricted statement says.
-/

namespace RowAccess

namespace Value

/-- The order of values that have one: numbers among each other, and texts. -/
def less? (v w : Value) : Option Bool :=
  match v.quantity?, w.quantity?, v.text?, w.text? with
  | some x, some y, _, _ => some (x.less y)
  | _, _, some s, some t => some (decide (s < t))
  | _, _, _, _ => none

/-- Fails at the first two neighbours that have no order. -/
def checkOrdered : List Value → Except Fault Unit
  | v :: w :: rest =>
    if (less? w v).isSome then checkOrdered (w :: rest)
    else .error (.unordered w.familyName v.familyName)
  | _ => .ok ()

/-- Values in their order. -/
def sorted (values : List Value) : Except Fault (List Value) := do
  checkOrdered values
  .ok (values.mergeSort fun v w => !((less? w v).getD false))

end Value

namespace Field

variable {M : Type}

/-- The `id` of a yielded row; a single value has none. -/
def id? (S : Schema M) : Field M → Except Fault Value
  | .row model key =>
    match ((S.model model).primaryKey.zip key).lookup "id" with
    | some cell => .ok (cell.value .integer)
    | none => .error (.noAttribute (S.model model).name "id")
  | .value v => .error (.noAttribute v.typeName "id")

end Field

namespace Request

variable {M : Type} [DecidableEq M] (S : Schema M) (db : Database M)

/-- The first field of every accessible row. -/
def accessibleRows (q : Request M) (statement : Select M) : Except Fault (List (Field M)) := do
  let restricted ← (q.accessible S statement).result
  let rows ← restricted.run S db
  .ok (rows.filterMap List.head?)

/-- The action of a request spelled out as it was given. -/
def shownAction (q : Request M) : String := (q.action.getD .null).describe

/-- Fails with a discrepancy. -/
def unmet {α : Type} (d : Discrepancy) : Except Fault α := .error (.unmet d)

/-- Expects accessible rows, and exactly so many if a number is given. -/
def expectRows (q : Request M) (statement : Select M) (count : Option Value) :
    Except Fault Unit := do
  let found := (← q.accessibleRows S db statement).length
  let actor := q.actor.describe
  let action := q.shownAction
  if found == 0 then unmet (.noRows actor action)
  else
    match count with
    | none => .ok ()
    | some n =>
      if n.equals (.int found) then .ok () else unmet (.rowCount n.plainText found actor action)

/-- Expects no accessible row. -/
def expectNone (q : Request M) (statement : Select M) : Except Fault Unit := do
  let found ← q.accessibleRows S db statement
  if found.isEmpty then .ok ()
  else unmet (.unexpectedRows found.length q.actor.describe q.shownAction)

/-- Expects the rows with the given ids, each once. -/
def expectIds (q : Request M) (statement : Select M) (expected : List Value) :
    Except Fault Unit := do
  let rows ← q.accessibleRows S db statement
  let ids ← rows.mapM (Field.id? S)
  match Value.unhashableIn? expected with
  | some typeName => .error (.unhashable typeName)
  | none =>
    let wanted := Value.distinctValues expected
    let found := Value.distinctValues ids
    if found.length != ids.length then
      let sorted ← Value.sorted ids
      unmet (.duplicateRows (Value.list sorted).describe)
    else if wanted.length == found.length && Value.among wanted found then .ok ()
    else
      let wanted ← Value.sorted wanted
      let found ← Value.sorted found
      unmet (.otherRows (Value.list wanted).describe (Value.list found).describe
        q.actor.describe q.shownAction)

/-- Expects a text in the restricted statement. -/
def expectText (q : Request M) (statement : Select M) (text : String) : Except Fault Unit := do
  let restricted ← (q.accessible S statement).result
  let written ← Sql.writeStatement S .literal restricted
  if Text.holds text.toList written.text.toList then .ok ()
  else unmet (.missingText (Value.text text).describe written.text)

end Request

end RowAccess
