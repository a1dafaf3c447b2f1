import RowAccess.Value.Display
/-!
# Faults

Everything that can go wrong while rules are registered, compiled and applied, as the cause it is.
The wording is in one place, `Fault.message?`.
-/

namespace RowAccess

/-- What is wrong with a condition tree. -/
inductive Malformation where
  /-- The value is neither a scalar, nor a collection, nor a nested tree. -/
  | unsupported
  /-- The conditions of a rule are no mapping. -/
  | notMapping
  /-- A rule function for this model and action returned no mapping. -/
  | returned (rule model : String) (action : Value)
  /-- A nested tree, reached along this path, is empty. -/
  | empty (path : List String)
  /-- The key is not a text. -/
  | keyNotText
  /-- Any other complaint, in its own words. -/
  | stated (message : String)
deriving Repr

/-- What was looked for on a model that lacks it. -/
inductive Sought where
  | relationship
  | column
deriving DecidableEq, Repr

/-- The name of what was looked for. -/
def Sought.name : Sought → String
  | .relationship => "relationship"
  | .column => "attribute"

/-- The failed checks of the expectations about accessible rows. -/
inductive Discrepancy where
  /-- Rows were expected and there are none. -/
  | noRows (actor action : String)
  /-- Another number of rows was expected. -/
  | rowCount (expected : String) (found : Nat) (actor action : String)
  /-- No rows were expected. -/
  | unexpectedRows (found : Nat) (actor action : String)
  /-- Some row came back more than once. -/
  | duplicateRows (found : String)
  /-- Other rows were expected. -/
  | otherRows (expected found actor action : String)
  /-- A text was expected in the statement. -/
  | missingText (text statement : String)
deriving DecidableEq, Repr

/-- A cause of failure. -/
inductive Fault where
  /-- A failure of access control as such, or of the compilation of rules, with its arguments. -/
  | general (compiling : Bool) (arguments : List Value)
  /-- No rules are registered for a model and an action. -/
  | noRules (resource action : Value)
  /-- A model lacks a relationship or an attribute. -/
  | schemaMismatch (model name sought : Value)
  /-- A value is none of an enumeration attribute. -/
  | invalidEnumValue (model key value : Value)
  /-- A condition tree is malformed at a key. -/
  | malformedTree (key value : Value) (malformation : Malformation)
  /-- The entity of a path was asked for that is not joined. -/
  | notJoined (path : List String)
  /-- The model of a path was asked for that is not joined. -/
  | unknownPath (path : List Value)
  /-- A path has an element that is not a text. -/
  | pathElement (position : Nat) (typeName : String)
  /-- A value that may change was used as a key. -/
  | unhashable (typeName : String)
  /-- Two values have no order. -/
  | unordered (left right : String)
  /-- A value has no elements to go through. -/
  | notIterable (typeName : String)
  /-- An element that should be a pair is no sequence. -/
  | notSequence (position : Nat)
  /-- An element that should be a pair has another length. -/
  | notPair (position length : Nat)
  /-- An actor lacks an attribute that a rule function reads. -/
  | noAttribute (owner name : String)
  /-- A rule function, or a body run in isolation, failed on its own. -/
  | raised (message : String)
  /-- The configured behaviour for missing rules is not one of the known ones. -/
  | unknownMissingRules (value : Value)
  /-- The configured default action is empty. -/
  | emptyDefaultAction
  /-- An expectation about accessible rows does not hold. -/
  | unmet (discrepancy : Discrepancy)
  /-- A value cannot be written as a constant of a statement. -/
  | unwritable
  /-- A join could start from more than one place of a statement. -/
  | ambiguousJoin
  /-- An integer is too large to be stored. -/
  | integerTooLarge
  /-- A value cannot be handed to the database. -/
  | unbindable
deriving Repr

namespace Discrepancy

/-- The wording of a discrepancy. -/
def message : Discrepancy → String
  | .noRows actor action =>
    "expected accessible query to return rows, but got 0 " ++ context actor action
  | .rowCount expected found actor action =>
    "expected " ++ expected ++ " rows, but got " ++ toString found ++ " " ++ context actor action
  | .unexpectedRows found actor action =>
    "expected zero rows but got " ++ toString found ++ " " ++ context actor action
  | .duplicateRows found => "duplicate rows returned: " ++ found
  | .otherRows expected found actor action =>
    "expected ids " ++ expected ++ ", got " ++ found ++ " " ++ context actor action
  | .missingText text statement => text ++ " not found in compiled SQL:\n" ++ statement
where
  /-- Who asked for what. -/
  context (actor action : String) : String := "(actor=" ++ actor ++ ", action=" ++ action ++ ")"

end Discrepancy

namespace Fault

/-- A model lacks a relationship. -/
def noRelationship (model : String) (name : Value) : Fault :=
  .schemaMismatch (.text model) name (.text Sought.relationship.name)

/-- A model lacks an attribute. -/
def noColumn (model : String) (name : Value) : Fault :=
  .schemaMismatch (.text model) name (.text Sought.column.name)

/-- A key holds a value of an unsupported kind. -/
def unsupported (key value : Value) : Fault := .malformedTree key value .unsupported

/-- The wording of a malformed tree. -/
def treeMessage (key value : Value) : Malformation → String
  | .unsupported =>
    "Condition " ++ key.describe ++ " has unsupported value " ++ value.describe ++ " (" ++
      value.typeName ++ "); expected a scalar, a list/tuple/set, or a mapping"
  | .notMapping => "Rule conditions must be a mapping, got " ++ value.typeName
  | .returned rule model action =>
    "Rule " ++ Text.quoted rule ++ " for (" ++ model ++ ", " ++ action.describe ++
      ") returned " ++ value.typeName ++ ", expected a mapping"
  | .empty path => "Empty nested condition under " ++ Text.quoted (".".intercalate path)
  | .keyNotText => "Condition key " ++ key.describe ++ " is not a string"
  | .stated message => message

/-- The wording of a fault. The statement language's own complaints have none. -/
def message? : Fault → Option String
  | .general _ arguments => some <| match arguments with
    | [] => ""
    | [argument] => argument.plainText
    | _ => (Value.tuple arguments).describe
  | .noRules resource action =>
    some ("No rules registered for (" ++ resource.plainText ++ ", " ++ action.describe ++ ")")
  | .schemaMismatch model name sought =>
    some (model.plainText ++ " has no " ++ sought.plainText ++ " " ++ name.describe)
  | .invalidEnumValue model key value =>
    some (value.describe ++ " is not a valid value for enumeration " ++ model.plainText ++ "." ++
      key.plainText)
  | .malformedTree key value malformation => some (treeMessage key value malformation)
  | .notJoined path =>
    some (Text.quoted ("Relationship path " ++ Text.quoted (".".intercalate path) ++
      " is not joined"))
  | .unknownPath path => some (Value.tuple path).describe
  | .pathElement position typeName =>
    some ("sequence item " ++ toString position ++ ": expected str instance, " ++ typeName ++
      " found")
  | .unhashable typeName => some ("unhashable type: " ++ Text.quoted typeName)
  | .unordered left right =>
    some ("'<' not supported between instances of " ++ Text.quoted left ++ " and " ++
      Text.quoted right)
  | .notIterable typeName => some (Text.quoted typeName ++ " object is not iterable")
  | .notSequence position =>
    some ("cannot convert dictionary update sequence element #" ++ toString position ++
      " to a sequence")
  | .notPair position length =>
    some ("dictionary update sequence element #" ++ toString position ++ " has length " ++
      toString length ++ "; 2 is required")
  | .noAttribute owner name =>
    some (Text.quoted owner ++ " object has no attribute " ++ Text.quoted name)
  | .raised message => some message
  | .unknownMissingRules value =>
    some ("on_missing_rules must be one of " ++
      Value.braced [Text.quoted "deny", Text.quoted "raise"] ++ ", got " ++ value.describe)
  | .emptyDefaultAction => some "default_action must be a non-empty string"
  | .unmet discrepancy => some discrepancy.message
  | .integerTooLarge => some "Python int too large to convert to SQLite INTEGER"
  | .unwritable | .ambiguousJoin | .unbindable => none

end Fault

end RowAccess
