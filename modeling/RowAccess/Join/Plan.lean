import RowAccess.Value
/-!
# Planning joins

A condition tree needs a join for every key that leads to a nested tree. The plan lists the paths
of those keys, a parent always before its children.
-/

namespace RowAccess

namespace Value

/-- Whether a value is a mapping. -/
def isMapping : Value → Bool
  | .mapping _ _ => true
  | _ => false

mutual

/-- The paths of keys that lead to nested trees; what is no mapping has none. -/
def joinPaths : Value → List (List Value)
  | .mapping _ entries => joinPathsOfEntries entries
  | _ => []
termination_by structural v => v

/-- The paths that start with the keys of these entries. -/
def joinPathsOfEntries : List (Value × Value) → List (List Value)
  | [] => []
  | (key, value) :: rest =>
    (if value.isMapping then [key] :: (joinPaths value).map (key :: ·) else []) ++
      joinPathsOfEntries rest
termination_by structural v => v

end

end Value

end RowAccess
