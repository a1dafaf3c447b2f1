import RowAccess.Select
/-!
# Layout of a statement

The tables a statement reads from, arranged in chains: a chain starts with a root source and goes
on with outer joins. A join continues the chain its parent belongs to; sources that no chain holds
stand alone.
-/

namespace RowAccess

/-- A root source with the outer joins that follow it. -/
structure Chain (M : Type) where
  root : Source M
  joins : List (Join M) := []
deriving DecidableEq, Repr

namespace Chain

variable {M : Type} [DecidableEq M]

/-- The sources of a chain, in order. -/
def sources (chain : Chain M) : List (Source M) := chain.root :: chain.joins.map (·.target)

/-- Whether a chain holds a source itself. -/
def holds (chain : Chain M) (source : Source M) : Bool := chain.sources.contains source

/-- Whether a chain holds a source, or another role of the model if it is the model's own table. -/
def covers (chain : Chain M) (source : Source M) : Bool :=
  chain.holds source ||
    (source.role == .own && chain.sources.any fun s => s.model == source.model)

/-- The source of a chain that a join from the given parent starts from: the parent itself, or else
the first role of its model that the chain holds. -/
def entry (chain : Chain M) (parent : Source M) : Source M :=
  if chain.holds parent then parent
  else (chain.sources.find? fun s => s.model == parent.model).getD parent

/-- A chain with one more join. -/
def extend (chain : Chain M) (join : Join M) : Chain M :=
  { chain with joins := chain.joins ++ [{ join with parent := chain.entry join.parent }] }

end Chain

namespace Layout

variable {M : Type} [DecidableEq M]

/-- Extends the chains that satisfy a test. -/
def extendWhere (test : Chain M → Bool) (join : Join M) (chains : List (Chain M)) :
    List (Chain M) :=
  chains.map fun chain => if test chain then chain.extend join else chain

/-- Adds a join to the chain its parent belongs to, or starts a chain at its parent. A parent that
belongs to several chains is taken to be in the one that holds it itself. -/
def place (join : Join M) (chains : List (Chain M)) : Except Fault (List (Chain M)) :=
  match chains.countP (·.covers join.parent), chains.countP (·.holds join.parent) with
  | 0, _ => .ok (chains ++ [⟨join.parent, [join]⟩])
  | 1, _ => .ok (extendWhere (·.covers join.parent) join chains)
  | _, 1 => .ok (extendWhere (·.holds join.parent) join chains)
  | _, _ => .error .ambiguousJoin

/-- The sources a filter reads from, in order. -/
def filterSources : Filter M → List (Source M)
  | .compare _ column _ | .isNull column | .isNotNull column | .among column _
  | .notAmong column _ => [column.source]
  | .both left right | .either left right => filterSources left ++ filterSources right
  | .never => []

/-- Adds a source that stands alone, unless some chain holds it. -/
def addSource (chains : List (Chain M)) (source : Source M) : List (Chain M) :=
  if chains.any (·.holds source) then chains else chains ++ [{ root := source }]

/-- The chains of a statement: those of its joins in the order they were started, then what the
select list and the conditions read from besides. -/
def chains (statement : Select M) : Except Fault (List (Chain M)) := do
  let joined ← statement.joins.foldlM (fun chains join => place join chains) []
  let others := statement.selected.filterMap Selected.source? ++
    statement.conditions.flatMap filterSources
  .ok (others.foldl addSource joined)

end Layout

end RowAccess
