import RowAccess.Fault
import RowAccess.Schema
import RowAccess.Value.Equality
/-!
# Enumeration attributes

Attributes whose conditions are written by name and stored as integers. A declaration lists the
names; decoding turns what a condition says into what is stored.
-/

namespace RowAccess

namespace Declaration

/-- The entries that a list of pairs stands for; positions are counted from the given one. -/
def entriesOfPairs (position : Nat) : List Value → Except Fault (List (Value × Value))
  | [] => .ok []
  | item :: rest =>
    match item.iterate? with
    | none => .error (.notSequence position)
    | some [key, value] =>
      match key.unhashable? with
      | some typeName => .error (.unhashable typeName)
      | none => (entriesOfPairs (position + 1) rest).map ((key, value) :: ·)
    | some items => .error (.notPair position items.length)

/-- The entries a value stands for: those of a mapping, or the pairs of any other collection. -/
def entriesOfValue (v : Value) : Except Fault (List (Value × Value)) :=
  match v.entries? with
  | some entries => .ok entries
  | none =>
    match v.iterate? with
    | some items => (entriesOfPairs 0 items).map Value.entriesOf
    | none => .error (.notIterable v.familyName)

/-- The names a declaration gives, each with what is stored for it. -/
def names : Declaration → Except Fault (List (Value × Value))
  | .ofEnumeration e => .ok (e.members.map fun m => (.text m.name, .ofContent m.content))
  | .ofValue v => entriesOfValue v

end Declaration

/-- An enumeration attribute of a model: what is stored for each of its names. -/
structure EnumAttribute where
  model : String
  key : String
  names : List (Value × Value)
deriving Repr

namespace EnumAttribute

/-- What a condition on an enumeration attribute is looked up by: a member counts by its name. -/
def symbol : Value → Value
  | .member m => .text m.name
  | v => v

/-- Whether a number is stored for some name. -/
def stores (e : EnumAttribute) (n : Int) : Bool := e.names.any fun entry => entry.2.equals (.int n)

/-- What is stored for a value of a condition: a name or a member stands for what its name is
stored as, a stored integer stands for itself, and the absent value stays absent. -/
def decode (e : EnumAttribute) (v : Value) : Except Fault Value :=
  match v with
  | .null => .ok .null
  | _ =>
    let invalid := Fault.invalidEnumValue (.text e.model) (.text e.key) v
    match symbol v with
    | .text s =>
      match Value.textLookup? s e.names with
      | some stored => .ok stored
      | none => .error invalid
    | .int n => if e.stores n then .ok (.int n) else .error invalid
    | _ => .error invalid

end EnumAttribute

end RowAccess
