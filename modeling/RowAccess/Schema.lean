import RowAccess.Value
/-!
# Schemas

The mapped world that rules talk about: models, each with a table, columns and relationships to
other models. Models are told apart by the elements of a type `M`; a schema says what each of them
is, so a look-up of a model cannot fail.
-/

namespace RowAccess

/-- What a column holds. -/
inductive ColumnType where
  | integer
  | text
  | boolean
  | float
  | numeric
  | date
  | dateTime
  | time
  | interval
  | uuid
  | binary
  | choice (options : Enumeration)
deriving DecidableEq, Repr

/-- A column of a model. Rules call it by its key, the table by its name. A column
with a factor is not stored: it is that multiple of the stored column of its name. -/
structure Column where
  key : String
  name : String
  type : ColumnType
  factor : Option Int
deriving DecidableEq, Repr

/-- A column as a table stores it. -/
structure StoredColumn where
  name : String
  type : ColumnType
deriving DecidableEq, Repr

/-- How the rows of a related model are found, by the stored columns that have to agree. A
relationship asks for nothing besides: no further condition on its rows, and no order. -/
inductive Link where
  /-- The row referred to: each column of the target equals one of the parent. -/
  | reference (pairs : List (StoredColumn × StoredColumn))
  /-- The rows that refer back: each column of the parent equals one of the target. -/
  | collection (pairs : List (StoredColumn × StoredColumn))
  /-- The rows tied to the parent by an association table: columns of the parent and columns of the
  target, each with the column of the association table it has to equal. -/
  | association (table : String) (parents targets : List (StoredColumn × StoredColumn))
deriving DecidableEq, Repr

/-- A named relationship to another model. -/
structure Relationship (M : Type) where
  name : String
  target : M
  link : Link
deriving DecidableEq, Repr

/-- Where an enumeration attribute takes its names from: an enumeration, or whatever value was
declared for it. -/
inductive Declaration where
  | ofEnumeration (e : Enumeration)
  | ofValue (v : Value)
deriving Repr

/-- What a schema says about one model. Declarations may name attributes that are no columns. -/
structure Model (M : Type) where
  name : String
  table : String
  columns : List Column
  primaryKey : List String
  relationships : List (Relationship M)
  declarations : List (String × Declaration)
deriving Repr

namespace Model

variable {M : Type}

/-- The column with the given key. -/
def column? (m : Model M) (key : String) : Option Column :=
  m.columns.find? fun c => c.key == key

/-- The relationship with the given name. -/
def relationship? (m : Model M) (name : String) : Option (Relationship M) :=
  m.relationships.find? fun r => r.name == name

/-- What was declared for the given key. -/
def declaration? (m : Model M) (key : String) : Option Declaration :=
  (m.declarations.find? fun entry => entry.1 == key).map (·.2)

end Model

/-- A schema describes every model. -/
structure Schema (M : Type) where
  model : M → Model M

end RowAccess
