import RowAccess.Fault
import RowAccess.Value.Equality
/-!
# Configuration

What happens when no rules are registered, which action is meant when none is named, whether
decisions are recorded, and whether repeated rows are dropped. A configuration is always valid;
overriding parts of it yields a valid one or fails as a whole.
-/

namespace RowAccess

/-- What happens when no rules are registered for a model and an action. -/
inductive MissingRules where
  /-- Nothing is accessible. -/
  | deny
  /-- The request fails. -/
  | raise
deriving DecidableEq, Repr

/-- The word for a behaviour. -/
def MissingRules.word : MissingRules → String
  | .deny => "deny"
  | .raise => "raise"

/-- The behaviour that a value names. -/
def MissingRules.ofValue? (v : Value) : Except Fault MissingRules :=
  match v.unhashable?, v.text? with
  | some typeName, _ => .error (.unhashable typeName)
  | none, some "deny" => .ok .deny
  | none, some "raise" => .ok .raise
  | none, _ => .error (.unknownMissingRules v)

/-- A configuration. The last two settings decide by their truth. -/
structure Config where
  missingRules : MissingRules := .deny
  defaultAction : Value := .text "read"
  recordDecisions : Value := .bool false
  distinct : Value := .bool true
  defaultAction_truthy : defaultAction.truthy = true := by decide

/-- New values for settings; the absent value leaves a setting as it is. -/
structure Overrides where
  missingRules : Value := .null
  defaultAction : Value := .null
  recordDecisions : Value := .null
  distinct : Value := .null
deriving Repr

namespace Config

/-- The configuration with the given settings, if they are valid. -/
def ofValues (missingRules defaultAction recordDecisions distinct : Value) :
    Except Fault Config := do
  let missing ← MissingRules.ofValue? missingRules
  if h : defaultAction.truthy = true then
    .ok ⟨missing, defaultAction, recordDecisions, distinct, h⟩
  else .error .emptyDefaultAction

/-- A value, or another one if it is the absent one. -/
def orElse (v other : Value) : Value := if v.isNull then other else v

/-- A configuration with some settings overridden. -/
def merge (c : Config) (o : Overrides) : Except Fault Config :=
  ofValues (orElse o.missingRules (.text c.missingRules.word))
    (orElse o.defaultAction c.defaultAction) (orElse o.recordDecisions c.recordDecisions)
    (orElse o.distinct c.distinct)

theorem missingRules_ofValue?_word (m : MissingRules) :
    MissingRules.ofValue? (.text m.word) = .ok m := by
  cases m <;> rfl

/-- Whether two configurations have equal settings. -/
def equals (c d : Config) : Bool :=
  c.missingRules == d.missingRules && c.defaultAction.equals d.defaultAction &&
    c.recordDecisions.equals d.recordDecisions && c.distinct.equals d.distinct

end Config

end RowAccess
