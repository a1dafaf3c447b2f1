import RowAccess.Condition
import RowAccess.Rule
/-!
# Compiling rules

Rules are folded from left to right into one filter. An allow rule compares with equality and is
added with "or"; a deny rule compares with a difference that empty columns satisfy and is added
with "and". A rule without conditions ends the fold and lifts the restriction, whatever came
before it.
-/

namespace RowAccess

/-- What a list of rules amounts to. -/
inductive Restriction (M : Type) where
  /-- There are no rules. -/
  | absent
  /-- The rule at this position has no conditions, so nothing is filtered. -/
  | lifted (position : Nat) (rule : Rule)
  /-- Only what satisfies the filter is accessible. -/
  | filtered (filter : Filter M)
deriving Repr

namespace Restriction

variable {M : Type}

/-- The filter to apply, if there is one. -/
def filter? : Restriction M → Option (Filter M)
  | .filtered filter => some filter
  | .absent | .lifted _ _ => none

end Restriction

namespace Rule

variable {M : Type} (S : Schema M)

/-- How a rule compares. -/
def comparator (rule : Rule) : Comparator := if rule.allows then .equal else .distinct

/-- The filter built so far with that of one more rule. -/
def extend (rule : Rule) (filter : Filter M) : Option (Filter M) → Filter M
  | none => filter
  | some before => if rule.allows then .either before filter else .both before filter

variable [DecidableEq M]

/-- The filter a single rule stands for; a rule without conditions has none. -/
def filter? (model : M) (joins : Option (JoinSet M)) (reflector : Reflector M) (rule : Rule) :
    Except Fault (Option (Filter M)) :=
  match rule.conditions with
  | .mapping packing entries =>
    if entries.isEmpty then .ok none
    else ((Position.root model joins reflector).node S rule.comparator packing entries).map some
  | other => .error (.malformedTree .null other .notMapping)

/-- Folds the rules from the given position on into the filter built so far. -/
def compileFrom (model : M) (joins : Option (JoinSet M)) (reflector : Reflector M)
    (position : Nat) (before : Option (Filter M)) : List Rule → Except Fault (Restriction M)
  | [] => .ok (match before with | none => .absent | some filter => .filtered filter)
  | rule :: rest => do
    match ← rule.filter? S model joins reflector with
    | none => .ok (.lifted position rule)
    | some filter =>
      compileFrom model joins reflector (position + 1) (some (rule.extend filter before)) rest

/-- Folds rules into a restriction. -/
def compile (model : M) (rules : List Rule) (joins : Option (JoinSet M))
    (reflector : Reflector M) : Except Fault (Restriction M) :=
  compileFrom S model joins reflector 0 none rules

end Rule

end RowAccess
