import RowAccess.Select
import RowAccess.Sql.Identifier
/-!
# Numbered names

A statement is first written as pieces, in which aliases, labels and parameters are still without
their numbers. Numbers are handed out in the order of the text, from one up for each base name,
whatever the name is for.
-/

namespace RowAccess.Sql

/-- What keeps its number when it is named again: the alias of a source, the alias of the
association table that leads to it, or the factor of a computed column. -/
inductive Mark (M : Type) where
  | alias (source : Source M)
  | association (source : Source M)
  | factor (column : ColumnRef M)
deriving DecidableEq, Repr

/-- A part of a statement. -/
inductive Piece (M : Type) where
  | text (s : String)
  /-- A numbered name that is the same wherever its mark stands. -/
  | alias (mark : Mark M) (base : String)
  /-- A numbered name that is used once. -/
  | label (base : String)
  /-- A parameter with a value of its own. -/
  | parameter (base : String) (value : Value)
  /-- A parameter that stands for a list. -/
  | parameterList (base : String) (values : List Value)
  /-- A parameter that is the same wherever its mark stands. -/
  | sharedParameter (mark : Mark M) (base : String) (value : Value)
deriving Repr

/-- A finished statement with the values of its parameters in the order of the text. -/
structure Written where
  text : String
  parameters : List (String × Value)
deriving Repr

/-- The numbers handed out so far, and the text written with them. -/
structure Numbering (M : Type) where
  counters : List (String × Nat) := []
  names : List (Mark M × String) := []
  text : String := ""
  parameters : List (String × Value) := []

namespace Numbering

variable {M : Type} [DecidableEq M]

/-- The next name for a base. -/
def fresh (n : Numbering M) (base : String) : String × Numbering M :=
  let number := (n.counters.lookup base).getD 0 + 1
  (base ++ "_" ++ toString number, { n with counters := (base, number) :: n.counters })

/-- The name of a mark, and whether it is new. -/
def shared (n : Numbering M) (mark : Mark M) (base : String) : String × Bool × Numbering M :=
  match n.names.lookup mark with
  | some name => (name, false, n)
  | none =>
    let (name, n) := n.fresh base
    (name, true, { n with names := (mark, name) :: n.names })

/-- Adds text. -/
def write (n : Numbering M) (s : String) : Numbering M := { n with text := n.text ++ s }

/-- Adds the value of a parameter. -/
def bind (n : Numbering M) (name : String) (value : Value) : Numbering M :=
  { n with parameters := n.parameters ++ [(name, value)] }

/-- Adds a piece. -/
def add (n : Numbering M) : Piece M → Numbering M
  | .text s => n.write s
  | .alias mark base =>
    let (name, _, n) := n.shared mark base
    n.write (identifier name)
  | .label base =>
    let (name, n) := n.fresh base
    n.write (identifier name)
  | .parameter base value =>
    let (name, n) := n.fresh base
    (n.write (":" ++ name)).bind name value
  | .parameterList base values =>
    let (name, n) := n.fresh base
    (n.write ("(__[POSTCOMPILE_" ++ name ++ "])")).bind name (.list values)
  | .sharedParameter mark base value =>
    let (name, new, n) := n.shared mark base
    let n := n.write (":" ++ name)
    if new then n.bind name value else n

end Numbering

/-- Hands out the numbers. -/
def Written.ofPieces {M : Type} [DecidableEq M] (pieces : List (Piece M)) : Written :=
  let n := pieces.foldl Numbering.add ({} : Numbering M)
  ⟨n.text, n.parameters⟩

end RowAccess.Sql
