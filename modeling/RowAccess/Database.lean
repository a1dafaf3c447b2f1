import RowAccess.Database.Affinity
import RowAccess.Source
/-!
# Databases

The rows of every model and of every association table, and the rows that a relationship leads to.
-/

namespace RowAccess

/-- A row: what it holds under each column name. -/
abbrev Row := String → Cell

/-- The row that holds the given cells under the given names and is empty elsewhere. -/
def Row.ofCells (names : List String) (cells : List Cell) : Row := fun name =>
  ((names.zip cells).lookup name).getD .null

/-- The stored rows. -/
structure Database (M : Type) where
  rows : M → List Row
  associations : String → List Row

namespace Database

variable {M : Type} (db : Database M)

/-- Whether the first row agrees with the second on pairs of columns, each pair compared on the side
where its columns meet. -/
def agree (pairs : List (StoredColumn × StoredColumn)) (first second : Row) : Bool :=
  pairs.all fun p =>
    let side := p.1.type.affinity.ofBoth p.2.type.affinity
    (side.adapt (first p.1.name)).equal (side.adapt (second p.2.name)) == some true

/-- The rows of a relationship's target that are related to a row, one for each way they are. -/
def related (r : Relationship M) (parent : Row) : List Row :=
  match r.link with
  | .reference pairs => (db.rows r.target).filter fun row => agree pairs row parent
  | .collection pairs => (db.rows r.target).filter fun row => agree pairs parent row
  | .association table parents targets =>
    ((db.associations table).filter fun link => agree parents parent link).flatMap fun link =>
      (db.rows r.target).filter fun row => agree targets row link

end Database

end RowAccess
