import RowAccess.Number.Binary64
/-!
# Cells

What a table stores at one place, and how stored values are compared. A comparison with an empty
cell is neither true nor false.
-/

namespace RowAccess

/-- A stored value. -/
inductive Cell where
  | null
  | int (n : Int)
  | real (x : Binary64)
  | text (s : String)
  | blob (content : List UInt8)
deriving DecidableEq, Repr, Inhabited

/-- A truth value that may be unknown. -/
abbrev Truth := Option Bool

namespace Truth

/-- Both hold. -/
def both : Truth → Truth → Truth
  | some false, _ | _, some false => some false
  | some true, some true => some true
  | _, _ => none

/-- At least one holds. -/
def either : Truth → Truth → Truth
  | some true, _ | _, some true => some true
  | some false, some false => some false
  | _, _ => none

/-- At least one of several holds. -/
def any (truths : List Truth) : Truth := truths.foldr either (some false)

/-- It does not hold. -/
def negate (t : Truth) : Truth := t.map not

@[simp] theorem both_eq_true {s t : Truth} :
    both s t = some true ↔ s = some true ∧ t = some true := by
  rcases s with _ | _ | _ <;> rcases t with _ | _ | _ <;> simp [both]

@[simp] theorem either_eq_true {s t : Truth} :
    either s t = some true ↔ s = some true ∨ t = some true := by
  rcases s with _ | _ | _ <;> rcases t with _ | _ | _ <;> simp [either]

@[simp] theorem either_eq_false {s t : Truth} :
    either s t = some false ↔ s = some false ∧ t = some false := by
  rcases s with _ | _ | _ <;> rcases t with _ | _ | _ <;> simp [either]

@[simp] theorem negate_eq_true {t : Truth} : negate t = some true ↔ t = some false := by
  rcases t with _ | _ | _ <;> simp [negate]

theorem any_eq_true {ts : List Truth} : any ts = some true ↔ some true ∈ ts := by
  induction ts with
  | nil => simp [any]
  | cons t ts ih =>
    have step : any (t :: ts) = either t (any ts) := rfl
    rw [step, either_eq_true, ih, List.mem_cons, eq_comm]

theorem any_eq_false {ts : List Truth} : any ts = some false ↔ ∀ t ∈ ts, t = some false := by
  induction ts with
  | nil => simp [any]
  | cons t ts ih =>
    have step : any (t :: ts) = either t (any ts) := rfl
    rw [step, either_eq_false, ih, List.forall_mem_cons]

end Truth

namespace Cell

/-- Whether a cell is empty. -/
def isNull : Cell → Bool
  | .null => true
  | _ => false

/-- The quantity in a cell that holds a number. -/
def quantity? : Cell → Option Exact
  | .int n => some (.ofInt n)
  | .real x => some x.exact
  | _ => none

/-- Whether two cells are the same; two empty ones are, and numbers are by their quantity. -/
def same (c d : Cell) : Bool :=
  match c.quantity?, d.quantity? with
  | some x, some y => x.equals y
  | _, _ => c == d

/-- Whether two cells hold the same value, which is unknown if one of them is empty. -/
def equal (c d : Cell) : Truth := if c.isNull || d.isNull then none else some (c.same d)

@[simp] theorem equal_null_left (d : Cell) : equal .null d = none := rfl

@[simp] theorem equal_null_right (c : Cell) : equal c .null = none := by
  simp [equal, isNull]

/-- Where the kinds of cells stand in the order of cells. -/
def rank : Cell → Nat
  | .null => 0
  | .int _ | .real _ => 1
  | .text _ => 2
  | .blob _ => 3

/-- The order of cells: empty ones first, then numbers, texts and byte strings. -/
def less (c d : Cell) : Bool :=
  match c, d with
  | .text s, .text t => decide (s < t)
  | .blob b, .blob e => decide (b < e)
  | c, d =>
    match c.quantity?, d.quantity? with
    | some x, some y => x.less y
    | _, _ => c.rank < d.rank

/-- The order of lists of cells: by the first place where they differ. -/
def lessThan : List Cell → List Cell → Bool
  | c :: cs, d :: ds => c.less d || (!d.less c && lessThan cs ds)
  | [], _ :: _ => true
  | _, [] => false

/-- The integers that a cell can hold: those of 64 bits. -/
abbrev Fits (n : Int) : Prop := -Int.pow 2 63 ≤ n ∧ n < Int.pow 2 63

/-- An integer as a number of the database: the integer itself if a cell can hold it, and the
nearest double otherwise. -/
def ofInt (n : Int) : Cell := if Fits n then .int n else .real (.ofInt n)

/-- A double as it is stored; an undefined one leaves the cell empty. -/
def ofDouble : Binary64 → Cell
  | .undefined => .null
  | x => .real x

/-- A numeral as a number of the database, an integer if it consists of digits alone. -/
def ofNumeral (digitsAlone : Bool) : Numeral → Cell
  | .finite negative coefficient exponent =>
    if digitsAlone then .ofInt (if negative then -(coefficient : Int) else coefficient)
    else .real (.ofNumeral (.finite negative coefficient exponent))
  | numeral => .real (.ofNumeral numeral)

/-- The number that a whole text is read as, if it is read as one; a sign may precede it and blanks
may surround it. -/
def readNumber? (s : String) : Option Cell :=
  let (negative, rest) := Numeral.takeSign (Numeral.trimmed s.toList)
  (Numeral.readDigits? negative rest).map (ofNumeral (rest.all Char.isDigit))

/-- The number at the start of a text, as far as it can be read as one; zero if there is none. -/
def ofPrefix (s : String) : Cell :=
  ((List.range (s.length + 1)).reverse.findSome? fun n =>
    readNumber? (String.ofList (s.toList.take n))).getD (.int 0)

/-- What a cell counts as in a calculation: texts and byte strings count as the number at their
start. -/
def number : Cell → Cell
  | .text s => ofPrefix s
  | .blob content => ofPrefix (String.ofList (content.map fun b => Char.ofNat b.toNat))
  | c => c

/-- A cell times an integer. A product of integers that no cell can hold becomes a double. -/
def scale (factor : Int) (c : Cell) : Cell :=
  match c.number with
  | .int n =>
    if Fits (n * factor) then .int (n * factor)
    else ofDouble ((Binary64.ofInt n).times (.ofInt factor))
  | .real x => ofDouble (x.times (.ofInt factor))
  | _ => .null

end Cell

end RowAccess
