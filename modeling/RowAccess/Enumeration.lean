/-!
# Enumerations

Closed sets of named members. A member carries a number, a text or a mere label: numbers and texts
stand for themselves wherever a number or a text is expected, a label equals nothing but itself.
-/

namespace RowAccess

/-- What a member of an enumeration carries. -/
inductive Content where
  | number (n : Int)
  | text (s : String)
  | label (s : String)
deriving DecidableEq, Repr

/-- A member of an enumeration under its own name. -/
structure Member where
  enumeration : String
  name : String
  content : Content
deriving DecidableEq, Repr

/-- An enumeration with its names in the order they were defined. A name whose content an earlier
name has is an alias of that one. -/
structure Enumeration where
  name : String
  combinable : Bool
  names : List (String × Content)
deriving DecidableEq, Repr

namespace Enumeration

/-- The member that carries the given content, under the first name defined for it. -/
def carrying? (e : Enumeration) (content : Content) : Option Member :=
  (e.names.find? fun entry => entry.2 == content).map fun entry => ⟨e.name, entry.1, content⟩

/-- The member a name stands for; an alias leads to the member it is an alias of. -/
def member? (e : Enumeration) (name : String) : Option Member :=
  (e.names.find? fun entry => entry.1 == name).bind fun entry => e.carrying? entry.2

/-- The members under their own names, combinations included; aliases are left out. -/
def ownMembers (e : Enumeration) : List Member :=
  e.names.filterMap fun entry => (e.carrying? entry.2).filter fun m => m.name == entry.1

/-- Whether a content is a single option of a combinable enumeration: a power of two. -/
def isSingle : Content → Bool
  | .number n => 0 < n && n.toNat == Nat.pow 2 (Nat.log2 n.toNat)
  | _ => true

/-- The members met when going through the enumeration: aliases are left out, and so are the
combinations of a combinable enumeration. -/
def members (e : Enumeration) : List Member :=
  e.names.filterMap fun entry =>
    match e.carrying? entry.2 with
    | some m => if m.name == entry.1 && (!e.combinable || isSingle m.content) then some m else none
    | none => none

end Enumeration

end RowAccess
