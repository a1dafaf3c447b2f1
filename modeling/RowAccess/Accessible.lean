import RowAccess.Audit
/-!
# Accessible rows

A statement restricted to what an actor may do an action on. Everything the select list describes
is restricted by the rules registered for it. Where there are none, nothing is accessible or the
request fails, as the configuration has it.
-/

namespace RowAccess

/-- Who asks for what, and where the rules are to be found. -/
structure Request (M : Type) where
  config : Config
  registry : Registry M
  reflector : Reflector M
  actor : Actor
  action : Option Value

/-- The records written along the way, and what came of it. -/
structure Outcome (α : Type) where
  records : List Record
  result : Except Fault α

namespace Outcome

variable {α β : Type}

/-- Goes on with a result, adding to the records. -/
def andThen (o : Outcome α) (f : α → Outcome β) : Outcome β :=
  match o.result with
  | .ok a =>
    let next := f a
    ⟨o.records ++ next.records, next.result⟩
  | .error fault => ⟨o.records, .error fault⟩

end Outcome

namespace Request

variable {M : Type} (S : Schema M)

/-- The action that is asked for. -/
def effectiveAction (q : Request M) : Value := q.action.getD q.config.defaultAction

/-- The name of what a select list describes. -/
def entityName : Described M → String
  | .model m => (S.model m).name
  | .renamed m => "aliased(" ++ (S.model m).name ++ ")"

variable [DecidableEq M]

/-- The rules for what a select list describes; renamed copies have none. -/
def rulesFor (q : Request M) : Described M → Except Fault (List Rule)
  | .model m => q.registry.evaluate S m q.effectiveAction q.actor
  | .renamed _ => (Registry.checkAction q.effectiveAction).map fun _ => []

/-- The records of a decision, if decisions are recorded. -/
def decisionRecords (q : Request M) (d : Decision M) : List Record :=
  if q.config.recordDecisions.truthy then Audit.records S d else []

/-- A decision about an entity that has no rules. -/
def unruled (q : Request M) (entity : String) (statement : Select M) : Outcome (Select M) :=
  let decision : Decision M :=
    ⟨entity, q.effectiveAction, q.actor, [], [], none, q.config.missingRules⟩
  ⟨q.decisionRecords S decision, match q.config.missingRules with
    | .raise => .error (.noRules (.text entity) q.effectiveAction)
    | .deny => .ok (statement.filteredBy .never)⟩

/-- A decision about a model by its rules. -/
def ruled (q : Request M) (model : M) (rules : List Rule) (statement : Select M) :
    Outcome (Select M) :=
  match statement.restrict S model rules q.reflector with
  | .error fault => ⟨[], .error fault⟩
  | .ok restricted =>
    let name := (S.model model).name
    let decision : Decision M := ⟨name, q.effectiveAction, q.actor, rules,
      restricted.joins.paths, restricted.restriction.filter?, .deny⟩
    ⟨Audit.lifted name restricted.restriction ++ q.decisionRecords S decision,
      .ok restricted.statement⟩

/-- Restricts a statement with regard to one thing it describes. -/
def restrictTo (q : Request M) (statement : Select M) (d : Described M) : Outcome (Select M) :=
  match q.rulesFor S d, d with
  | .error fault, _ => ⟨[], .error fault⟩
  | .ok (rule :: rules), .model m => q.ruled S m (rule :: rules) statement
  | .ok _, _ => q.unruled S (entityName S d) statement

/-- Restricts a statement with regard to everything described, in order. -/
def restrictToAll (q : Request M) : List (Described M) → Select M → Outcome (Select M)
  | [], statement => ⟨[], .ok statement⟩
  | d :: rest, statement => (q.restrictTo S statement d).andThen (q.restrictToAll rest)

/-- The statement restricted to what is accessible. -/
def accessible (q : Request M) (statement : Select M) : Outcome (Select M) :=
  let described := statement.selected.filterMap Selected.described?
  (q.restrictToAll S described statement).andThen fun restricted =>
    ⟨[], .ok (if q.config.distinct.truthy then restricted.deduplicated else restricted)⟩

end Request

end RowAccess
