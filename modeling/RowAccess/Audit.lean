import RowAccess.Config
import RowAccess.Registry
import RowAccess.Sql.Expression
/-!
# Records of decisions

What is written down while access is decided: a warning where no rules are registered; otherwise a
summary and, in detail, the rules, the joined paths and the filter.
-/

namespace RowAccess

/-- How important a record is. -/
inductive Level where
  | debug
  | info
  | warning
deriving DecidableEq, Repr

/-- Who writes a record: the audit of decisions, or the compilation of rules. -/
inductive Channel where
  | audit
  | compilation
deriving DecidableEq, Repr

/-- A written record. -/
structure Record where
  channel : Channel
  level : Level
  message : String
deriving DecidableEq, Repr

/-- Where a level stands among the levels. -/
def Level.rank : Level → Nat
  | .debug => 0
  | .info => 1
  | .warning => 2

/-- A decision about the accessible rows of one entity. -/
structure Decision (M : Type) where
  entity : String
  action : Value
  actor : Actor
  rules : List Rule
  joins : List (List String) := []
  filter : Option (Filter M) := none
  missingRules : MissingRules := .deny

namespace Audit

variable {M : Type} (S : Schema M)

/-- The record of the rule that lifted a restriction. -/
def lifted (model : String) : Restriction M → List Record
  | .lifted position rule =>
    [⟨.compilation, .debug, "Rule " ++ toString position ++ " (" ++ rule.shownName ++ ") on " ++
      model ++ " is unconditional; filter dropped"⟩]
  | .absent | .filtered _ => []

/-- The record of an entity without rules. -/
def missing (d : Decision M) : Record :=
  let outcome := match d.missingRules with
    | .raise => "raising NoRulesError"
    | .deny => "deny-by-default applied"
  ⟨.audit, .warning, "No rules registered for (" ++ d.entity ++ ", " ++ d.action.describe ++
    ") — " ++ outcome⟩

/-- The summary of a decision. -/
def summary (d : Decision M) : Record :=
  ⟨.audit, .info, "Rule evaluation: " ++ d.entity ++ "." ++ d.action.plainText ++ " — " ++
    toString d.rules.length ++ " rule(s) applied for actor " ++ d.actor.describe⟩

/-- Texts spelled out as a list. -/
def listed (texts : List String) : String := (Value.list (texts.map .text)).describe

/-- The polarity and the name of a rule. -/
def ruleLabel (rule : Rule) : String :=
  (if rule.allows then "can:" else "cannot:") ++ rule.shownName

variable [DecidableEq M]

/-- The text of a filter with its values left to parameters. -/
def filterText (filter : Option (Filter M)) : String :=
  match filter with
  | none => "<unconditional>"
  | some f =>
    match Sql.writeFilter S .bound f with
    | .ok written => written.text
    | .error _ => ""

/-- The details of a decision. -/
def details (d : Decision M) : Record :=
  ⟨.audit, .debug, "Rules for " ++ d.entity ++ "." ++ d.action.plainText ++ ": " ++
    listed (d.rules.map ruleLabel) ++ " — joins: " ++ listed (d.joins.map (".".intercalate ·)) ++
    " — filter: " ++ filterText S d.filter⟩

/-- The records of a decision. -/
def records (d : Decision M) : List Record :=
  if d.rules.isEmpty then [missing d] else [summary d, details S d]

end Audit

end RowAccess
