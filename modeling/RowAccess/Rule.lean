import RowAccess.Value
/-!
# Rules

A rule allows or denies by a tree of conditions. A rule without conditions is unconditional.
-/

namespace RowAccess

/-- A single allow or deny rule. `grants` decides by its truth; `name` is for messages. -/
structure Rule where
  grants : Value
  conditions : Value
  name : String
deriving Repr

namespace Rule

/-- Whether the rule allows. -/
def allows (r : Rule) : Bool := r.grants.truthy

/-- Whether the rule has no conditions at all. -/
def unconditional (r : Rule) : Bool := !r.conditions.truthy

/-- The name of the rule in messages. -/
def shownName (r : Rule) : String := if r.name == "" then "<anonymous>" else r.name

end Rule

end RowAccess
