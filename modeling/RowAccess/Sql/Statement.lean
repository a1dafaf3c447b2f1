import RowAccess.Layout
import RowAccess.Sql.SelectList
/-!
# Written statements

A select statement as text: the select list, the chains of tables, the conditions, the order and
the limit.
-/

namespace RowAccess.Sql

variable {M : Type} (S : Schema M)

/-- A table under the name the statement calls it by. -/
def sourceTable (source : Source M) : List (Piece M) :=
  let table := identifier (S.model source.model).table
  match source.role with
  | .own => [.text table]
  | .joined _ _ | .renamed _ => [.text (table ++ " AS "), sourceName S source]

/-- An equation between two columns. -/
def equation (left right : List (Piece M)) : List (Piece M) := left ++ .text " = " :: right

/-- An outer join. An association table is joined to its target first. -/
def join (j : Join M) : List (Piece M) :=
  let parent (name : String) := storedColumn S j.parent name
  let target (name : String) := storedColumn S j.target name
  let conjunction (equations : List (List (Piece M))) := separated " AND " equations
  .text " LEFT OUTER JOIN " :: match j.relationship.link with
  | .reference pairs =>
    sourceTable S j.target ++ .text " ON " ::
      conjunction (pairs.map fun p => equation (target p.1.name) (parent p.2.name))
  | .collection pairs =>
    sourceTable S j.target ++ .text " ON " ::
      conjunction (pairs.map fun p => equation (parent p.1.name) (target p.2.name))
  | .association table parents targets =>
    let link : Piece M := .alias (.association j.target) table
    let linked (name : String) : List (Piece M) := [link, .text ("." ++ identifier name)]
    parenthesized ([.text (identifier table ++ " AS "), link, .text " JOIN "] ++
      sourceTable S j.target ++ .text " ON " ::
        conjunction (targets.map fun p => equation (target p.1.name) (linked p.2.name))) ++
      .text " ON " ::
        conjunction (parents.map fun p => equation (parent p.1.name) (linked p.2.name))

/-- A chain: its root and the joins after it. -/
def chain (c : Chain M) : List (Piece M) := sourceTable S c.root ++ c.joins.flatMap (join S)

/-- The conditions of a statement; one that no row satisfies makes the others pointless. -/
def conditions (style : Style) (fs : List (Filter M)) : Except Fault (List (Piece M)) :=
  match fs with
  | [] => .ok []
  | first :: rest =>
    if fs.any Filter.isNever then .ok [.text " \nWHERE false"]
    else (filter S style (.all first rest)).map (.text " \nWHERE " :: ·)

/-- The order of a statement. -/
def order (style : Style) (columns : List (ColumnRef M)) : List (Piece M) :=
  if columns.isEmpty then []
  else .text " ORDER BY " :: separated ", " (columns.map (column S style))

/-- The limit of a statement. -/
def limit (style : Style) : Option Int → List (Piece M)
  | none => []
  | some n =>
    .text "\n LIMIT " :: match style with
      | .literal => [.text (toString n)]
      | .bound => [.parameter "param" (.int n)]

variable [DecidableEq M]

/-- The pieces of a statement. -/
def statement (style : Style) (s : Select M) : Except Fault (List (Piece M)) := do
  let chains ← Layout.chains s
  let wheres ← conditions S style s.conditions
  let list := separated ", " (outputs S style {} (outputsFrom S [] s.selected))
  let tables : List (Piece M) := if chains.isEmpty then []
    else .text " \nFROM " :: separated ", " (chains.map (chain S))
  .ok (.text (if s.distinct then "SELECT DISTINCT " else "SELECT ") :: list ++ tables ++ wheres ++
    order S style s.order ++ limit style s.limit)

/-- A statement as text. -/
def writeStatement (style : Style) (s : Select M) : Except Fault Written :=
  (statement S style s).map Written.ofPieces

end RowAccess.Sql
