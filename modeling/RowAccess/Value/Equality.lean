import RowAccess.Value
/-!
# Equality of values

When two values count as the same key or the same element: numbers by their quantity, texts by
their characters, collections by their elements. A number that is undefined and a foreign value
equal nothing.
-/

namespace RowAccess

namespace Value

mutual

/-- Whether two values count as equal. -/
def equals : Value → Value → Bool
  | .null, .null => true
  | .bytes b, .bytes c | .bytes b, .buffer c | .buffer b, .bytes c | .buffer b, .buffer c => b == c
  | .date d, .date e => d == e
  | .dateTime t, .dateTime u => t.equals u
  | .time t, .time u => t.equals u
  | .duration d, .duration e => d == e
  | .uuid u, .uuid v => u == v
  | .member ⟨e, n, .label s⟩, .member ⟨f, m, .label t⟩ => e == f && n == m && s == t
  | .list xs, .list ys | .tuple xs, .tuple ys => pointwise xs ys
  | .set xs, .set ys | .set xs, .frozenSet ys | .frozenSet xs, .set ys
  | .frozenSet xs, .frozenSet ys => xs.length == ys.length && among xs ys
  | .range a b c, .range x y z =>
    let n := rangeLength a b c
    n == rangeLength x y z && (n == 0 || a == x && (n == 1 || c == z))
  | .mapping _ es, .mapping _ fs => es.length == fs.length && within es fs
  | v, w =>
    match v.quantity?, w.quantity? with
    | some x, some y => x.equals y
    | none, none =>
      match v.text?, w.text? with
      | some s, some t => s == t
      | _, _ => false
    | _, _ => false
termination_by structural v => v

/-- Whether two lists agree element by element. -/
def pointwise : List Value → List Value → Bool
  | [], [] => true
  | x :: xs, y :: ys => equals x y && pointwise xs ys
  | _, _ => false
termination_by structural v => v

/-- Whether each of the first values equals one of the second. -/
def among : List Value → List Value → Bool
  | [], _ => true
  | x :: xs, ys => ys.any (equals x) && among xs ys
termination_by structural v => v

/-- Whether each of the first entries equals one of the second. -/
def within : List (Value × Value) → List (Value × Value) → Bool
  | [], _ => true
  | (k, v) :: es, fs => fs.any (fun f => equals k f.1 && equals v f.2) && within es fs
termination_by structural v => v

end

/-- The value stored under a key. -/
def lookup? (key : Value) : List (Value × Value) → Option Value
  | [] => none
  | (k, v) :: rest => if equals k key then some v else lookup? key rest

/-- The value stored under a text. -/
def textLookup? (name : String) : List (Value × Value) → Option Value :=
  lookup? (.text name)

/-- Stores a value under a key: a key that is there already keeps its place and its spelling. -/
def store (key value : Value) : List (Value × Value) → List (Value × Value)
  | [] => [(key, value)]
  | (k, v) :: rest => if equals k key then (k, value) :: rest else (k, v) :: store key value rest

/-- The entries that are left when entries are stored one after the other. -/
def entriesOf (written : List (Value × Value)) : List (Value × Value) :=
  written.foldl (fun stored entry => store entry.1 entry.2 stored) []

/-- Values without repetitions: the first of equal values stays. -/
def distinctValues (values : List Value) : List Value :=
  values.foldl (fun kept v => if kept.any (equals v) then kept else kept ++ [v]) []

/-! ## Texts as keys -/

theorem unhashable?_of_text? {v : Value} {text : String} (h : v.text? = some text) :
    v.unhashable? = none := by
  cases v <;> simp_all [text?, unhashable?]

theorem text?_eq_some_iff {v : Value} {s : String} :
    v.text? = some s ↔ v = .text s ∨ ∃ e n, v = .member ⟨e, n, .text s⟩ := by
  cases v with
  | member m =>
      obtain ⟨e, n, content⟩ := m
      cases content <;> simp [text?]
  | _ => simp [text?]

theorem equals_iff_of_text?_right {v w : Value} {s : String} (hw : w.text? = some s) :
    v.equals w = true ↔ v.text? = some s := by
  rcases text?_eq_some_iff.1 hw with rfl | ⟨e, n, rfl⟩
  all_goals
    cases v with
    | member m =>
        obtain ⟨e, n, content⟩ := m
        cases content <;> simp [equals, text?, quantity?]
    | _ => simp [equals, text?, quantity?]

theorem equals_iff_of_text?_left {v w : Value} {s : String} (hv : v.text? = some s) :
    v.equals w = true ↔ w.text? = some s := by
  rw [@eq_comm _ w.text?]
  rcases text?_eq_some_iff.1 hv with rfl | ⟨e, n, rfl⟩
  all_goals
    cases w with
    | member m =>
        obtain ⟨e, n, content⟩ := m
        cases content <;> simp [equals, text?, quantity?]
    | _ => simp [equals, text?, quantity?]

/-- A value that equals a text under which something is stored is the same text as it. -/
theorem equals_congr_of_text? {v w key : Value} (hkey : key.text?.isSome = true)
    (h : v.equals w = true) : v.equals key = true ↔ w.equals key = true := by
  obtain ⟨s, hs⟩ := Option.isSome_iff_exists.1 hkey
  rw [equals_iff_of_text?_right hs, equals_iff_of_text?_right hs]
  constructor
  · intro hv
    exact (equals_iff_of_text?_left hv).1 h
  · intro hw
    exact (equals_iff_of_text?_right hw).1 h

end Value

end RowAccess
