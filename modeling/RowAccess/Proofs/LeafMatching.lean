import RowAccess.Condition
import RowAccess.Database.Evaluation
import RowAccess.Proofs.StoredValues
/-!
# Leaves and what they match

A leaf of a condition tree asks about one column of one row. Read by itself, before it becomes a
filter of some source, it is a column with one decoded value or with a collection of them. This
module says which cells such a leaf matches and compares that with the filters it is compiled to:
equality keeps the rows that match, and the difference of deny rules keeps the others, as long as
the database takes the values and none of them is undefined.
-/

namespace RowAccess

theorem Value.isNull_iff {v : Value} : v.isNull = true ↔ v = .null := by
  cases v <;> simp [isNull]

/-- What a column holds in a row; every column of a missing row is empty. -/
def Column.cell (c : Column) : Option Row → Cell
  | none => .null
  | some row =>
    match c.factor with
    | none => row c.name
    | some factor => (row c.name).scale factor

theorem Assignment.read_eq {M : Type} (a : Assignment M) (c : ColumnRef M) :
    a.read c = c.column.cell (a c.source) := by
  unfold read Column.cell
  cases a c.source with
  | none => rfl
  | some row => cases c.column.factor <;> rfl

theorem Cell.isNull_iff {cell : Cell} : cell.isNull = true ↔ cell = .null := by
  cases cell <;> simp [isNull]

/-- What a leaf compares a column with: a single decoded value, or the decoded elements of a
collection. -/
inductive Operand where
  | one (value : Value)
  | many (values : List Value)

/-- A leaf as it is read: a column and what it is compared with. -/
structure Leaf where
  column : Column
  operand : Operand

namespace Operand

/-- The values that are asked for, whether as one or as a collection. -/
def members : Operand → List Value
  | .one value => [value]
  | .many values => values

/-- The values that are asked for and present. -/
def present (o : Operand) : List Value := o.members.filter fun v => !v.isNull

theorem present_one_of_ne_null {v : Value} (hv : v ≠ .null) : (one v).present = [v] := by
  have hpresent : v.isNull = false := by
    rw [Bool.eq_false_iff]
    exact mt Value.isNull_iff.1 hv
  simp [present, members, hpresent]

theorem present_one_null : (one .null).present = [] := rfl

theorem present_many (values : List Value) :
    (many values).present = values.filter fun v => !v.isNull := rfl

theorem any_isNull_iff {values : List Value} :
    values.any Value.isNull = true ↔ Value.null ∈ values := by
  simp [List.any_eq_true, Value.isNull_iff]

end Operand

/-! ## What the database compares with -/

namespace Binding

theorem list_singleton {c : Column} {v : Value} (hv : v ≠ .null) :
    list c [v] = (single c v).map fun cell => [cell] := by
  have hmapM : ∀ f : Value → Except Fault Cell, [v].mapM f = (f v).map fun cell => [cell] := by
    intro f
    cases hf : f v <;> simp [List.mapM_cons, hf, bind, Except.bind, pure, Except.pure, Except.map]
  rw [list, hmapM]
  cases v with
  | null => exact absurd rfl hv
  | bool b => cases b <;> rfl
  | _ => rfl

end Binding

namespace Leaf

/-- The cell that a leaf is about matches one of the values asked for. The absent value matches
exactly the empty cell; any other value matches the cells that the database finds equal to it. -/
def Matches (leaf : Leaf) (cell : Cell) : Prop :=
  (cell = .null ∧ Value.null ∈ leaf.operand.members) ∨
    ∃ stored, Binding.list leaf.column leaf.operand.present = .ok stored ∧
      ∃ k ∈ stored, cell.equal k = some true

/-- The leaf matches what its column holds in a row. -/
def MatchesRow (leaf : Leaf) (row : Option Row) : Prop := leaf.Matches (leaf.column.cell row)

/-- The database takes all values that a leaf compares with. -/
def Accepted (leaf : Leaf) : Prop :=
  ∃ stored, Binding.list leaf.column leaf.operand.present = .ok stored

/-- None of the present values is handed to the database as an empty cell, as an undefined number
would be. -/
def Defined (leaf : Leaf) : Prop :=
  ∀ stored, Binding.list leaf.column leaf.operand.present = .ok stored → Cell.null ∉ stored

/-- The leaf asks for the empty cell: by the absent value, alone or in a collection, or by a single
value that is handed to the database as an empty cell, as an undefined number is. -/
def AsksForEmpty (leaf : Leaf) : Prop :=
  match leaf.operand with
  | .one value => Binding.single leaf.column value = .ok .null
  | .many values => Value.null ∈ values

/-- Only undefined numbers are handed over as empty cells. -/
theorem defined_of_values {leaf : Leaf}
    (h : ∀ v ∈ leaf.operand.members, v.isUndefined = false) : leaf.Defined :=
  fun _ hstored => Binding.list_ne_null (fun v hv => h v (List.mem_filter.1 hv).1) hstored

variable {M : Type}

/-- The filter that a leaf becomes for a source. -/
def filter (leaf : Leaf) (comparator : Comparator) (source : Source M) : Filter M :=
  match leaf.operand with
  | .one value => .comparison comparator ⟨source, leaf.column⟩ value
  | .many values => .membership comparator ⟨source, leaf.column⟩ values

theorem filter_one {c : Column} {value : Value} (hv : value ≠ .null) (comparator : Comparator)
    (source : Source M) :
    (⟨c, .one value⟩ : Leaf).filter comparator source = .compare comparator ⟨source, c⟩ value := by
  cases comparator <;> cases value <;> simp_all [filter, Filter.comparison]

theorem filter_distinct_one (c : Column) (value : Value) (source : Source M) :
    (⟨c, .one value⟩ : Leaf).filter .distinct source = .compare .distinct ⟨source, c⟩ value := by
  simp [filter, Filter.comparison]

theorem filterSources_filter (leaf : Leaf) (comparator : Comparator) (source : Source M) :
    ∀ s ∈ Layout.filterSources (leaf.filter comparator source), s = source := by
  obtain ⟨c, operand⟩ := leaf
  cases operand with
  | one value =>
      cases comparator <;> cases value <;>
        simp [filter, Filter.comparison, Layout.filterSources]
  | many values =>
      simp only [filter, Filter.membership]
      split <;> simp [Layout.filterSources]

theorem checkValues_filter (leaf : Leaf) (comparator : Comparator) (source : Source M) :
    (leaf.filter comparator source).checkValues = .ok () ↔ leaf.Accepted := by
  obtain ⟨c, operand⟩ := leaf
  have hlist : ∀ values, (Binding.list c values).map (fun _ => ()) = .ok () ↔
      ∃ stored, Binding.list c values = .ok stored := by
    intro values
    rw [Success.map_eq_ok_iff]
    simp
  cases operand with
  | one value =>
      by_cases hnull : value = .null
      · subst hnull
        cases comparator <;> simp [filter, Filter.comparison, Filter.checkValues, Accepted,
          Operand.present_one_null, Binding.list, Binding.single, Except.map]
      · rw [filter_one hnull, Filter.checkValues, Accepted, Operand.present_one_of_ne_null hnull,
          Binding.list_singleton hnull]
        cases Binding.single c value <;> simp [Except.map]
  | many values =>
      rw [Accepted, Operand.present_many, ← hlist]
      simp only [filter, Filter.membership]
      split <;> simp [Filter.checkValues, Success.bind_eq_ok_iff]

/-! ## What a leaf keeps -/

section Holds

variable {a : Assignment M} {source : Source M} {leaf : Leaf}

theorem any_holds {a : Assignment M} {c : ColumnRef M} {values : List Value} :
    Truth.any ((Filter.operands c values).map (a.read c).equal) = some true ↔
      ∃ stored, Binding.list c.column values = .ok stored ∧
        ∃ k ∈ stored, (a.read c).equal k = some true := by
  rw [Truth.any_eq_true, List.mem_map, Filter.operands]
  cases Binding.list c.column values <;> simp [Except.toOption]

/-- Compared with equality a leaf keeps exactly what it matches. -/
theorem holds_equal :
    (leaf.filter .equal source).holds a = true ↔ leaf.MatchesRow (a source) := by
  obtain ⟨c, operand⟩ := leaf
  have hread : a.read ⟨source, c⟩ = c.cell (a source) := a.read_eq _
  cases operand with
  | one value =>
      by_cases hv : value = .null
      · subst hv
        simp [filter, Filter.comparison, Filter.holds, Filter.truth, MatchesRow, Matches, hread,
          Cell.isNull_iff, Operand.present_one_null, Operand.members, Binding.list]
      · rw [filter_one hv, MatchesRow, Matches, Operand.present_one_of_ne_null hv,
          Binding.list_singleton hv]
        simp only [Filter.holds, Filter.truth, Filter.operand, hread, Operand.members,
          List.mem_singleton, beq_iff_eq]
        cases Binding.single c value <;> simp [Except.map, Except.toOption, Ne.symm hv]
  | many values =>
      rw [MatchesRow, Matches, Operand.present_many]
      simp only [filter, Filter.membership, Operand.members, ← hread]
      cases hany : values.any Value.isNull with
      | false =>
          have hmem : Value.null ∉ values := by
            rw [← Operand.any_isNull_iff, hany]
            simp
          simp only [Filter.holds, Filter.truth, beq_iff_eq, any_holds, hmem, and_false, false_or]
      | true =>
          have hmem := Operand.any_isNull_iff.1 hany
          simp only [Filter.holds, Filter.truth, beq_iff_eq, Truth.either_eq_true, any_holds, hmem,
            and_true, Option.some.injEq, Cell.isNull_iff]

theorem none_holds {c : ColumnRef M} {values : List Value} {stored : List Cell}
    (hstored : Binding.list c.column values = .ok stored) (hnull : Cell.null ∉ stored) :
    (Truth.any ((Filter.operands c values).map (a.read c).equal)).negate = some true ↔
      (a.read c = .null → stored = []) ∧ ∀ k ∈ stored, ¬ (a.read c).equal k = some true := by
  rw [Truth.negate_eq_true, Truth.any_eq_false, Filter.operands, hstored]
  simp only [Except.toOption, Option.getD_some, List.forall_mem_map]
  have hequal : ∀ k ∈ stored, (a.read c).equal k = some false ↔
      a.read c ≠ .null ∧ ¬ (a.read c).equal k = some true := by
    intro k hk
    have hk : k.isNull = false := by
      rw [Bool.eq_false_iff, Ne, Cell.isNull_iff]
      exact fun heq => hnull (heq ▸ hk)
    rw [Ne, ← Cell.isNull_iff, Cell.equal, hk]
    cases (a.read c).isNull <;> simp
  constructor
  · intro h
    refine ⟨fun hread => List.eq_nil_iff_forall_not_mem.2 fun k hk => ?_, fun k hk => ?_⟩
    · exact ((hequal k hk).1 (h k hk)).1 hread
    · exact ((hequal k hk).1 (h k hk)).2
  · rintro ⟨hread, hnone⟩ k hk
    refine (hequal k hk).2 ⟨fun h => ?_, hnone k hk⟩
    rw [hread h] at hk
    simp at hk

theorem not_same_iff {cell k : Cell} (hk : k ≠ .null) :
    (!cell.same k) = true ↔ ¬ cell.equal k = some true := by
  have hknull : k.isNull = false := by
    rw [Bool.eq_false_iff, Ne, Cell.isNull_iff]
    exact hk
  by_cases hcell : cell = .null
  · subst hcell
    cases k <;> simp_all [Cell.same, Cell.quantity?]
  · have hcellnull : cell.isNull = false := by
      rw [Bool.eq_false_iff, Ne, Cell.isNull_iff]
      exact hcell
    simp [Cell.equal, hknull, hcellnull]

theorem holds_distinct_one {c : Column} {value : Value} (hread : a.read ⟨source, c⟩ = c.cell row)
    (haccepted : (⟨c, .one value⟩ : Leaf).Accepted) (hdefined : (⟨c, .one value⟩ : Leaf).Defined) :
    ((⟨c, .one value⟩ : Leaf).filter .distinct source).holds a = true ↔
      ¬ (⟨c, .one value⟩ : Leaf).MatchesRow row := by
  obtain ⟨stored, hstored⟩ := haccepted
  have hnull := hdefined stored hstored
  rw [filter_distinct_one, MatchesRow, Matches]
  simp only [Filter.holds, Filter.truth, beq_iff_eq, Option.some.injEq, hread, Operand.members,
    List.mem_singleton]
  by_cases hv : value = .null
  · subst hv
    rw [Operand.present_one_null]
    cases hcell : c.cell row <;>
      simp [Filter.operand, Binding.single, Except.toOption, Binding.list, Cell.same,
        Cell.quantity?]
  · rw [Operand.present_one_of_ne_null hv, Binding.list_singleton hv,
      Success.map_eq_ok_iff] at hstored
    obtain ⟨k, hk, rfl⟩ := hstored
    have hkne : k ≠ .null := by
      rintro rfl
      simp at hnull
    rw [Operand.present_one_of_ne_null hv, Binding.list_singleton hv, hk]
    simp [Filter.operand, hk, Except.toOption, Except.map, not_same_iff hkne, Ne.symm hv]

theorem holds_distinct_many {c : Column} {values : List Value}
    (hread : a.read ⟨source, c⟩ = c.cell row) (haccepted : (⟨c, .many values⟩ : Leaf).Accepted)
    (hdefined : (⟨c, .many values⟩ : Leaf).Defined) :
    ((⟨c, .many values⟩ : Leaf).filter .distinct source).holds a = true ↔
      ¬ (⟨c, .many values⟩ : Leaf).MatchesRow row := by
  obtain ⟨stored, hstored⟩ := haccepted
  have hnull := hdefined stored hstored
  rw [Operand.present_many] at hstored
  have hkept := none_holds (a := a) (c := ⟨source, c⟩) hstored hnull
  rw [MatchesRow, Matches, Operand.present_many, hstored, not_or, ← hread]
  simp only [filter, Filter.membership, Operand.members]
  cases hany : values.any Value.isNull with
  | false =>
      have hmem : Value.null ∉ values := by
        rw [← Operand.any_isNull_iff, hany]
        simp
      simp only [Filter.holds, Filter.truth, beq_iff_eq, Truth.either_eq_true,
        hkept, Option.some.injEq, Cell.isNull_iff, hmem, and_false,
        not_false_eq_true, true_and, Except.ok.injEq, exists_eq_left', not_exists, not_and]
      constructor
      · rintro (hcell | ⟨-, hnone⟩)
        · simp [hcell]
        · exact hnone
      · intro hnone
        by_cases hcell : a.read ⟨source, c⟩ = .null
        · exact .inl hcell
        · exact .inr ⟨fun h => absurd h hcell, hnone⟩
  | true =>
      have hmem := Operand.any_isNull_iff.1 hany
      simp only [Filter.holds, Filter.truth, beq_iff_eq, Truth.both_eq_true,
        hkept, Option.some.injEq, Bool.not_eq_true', ← Bool.not_eq_true,
        Cell.isNull_iff, hmem, and_true, Except.ok.injEq, exists_eq_left', not_exists, not_and]
      constructor
      · rintro ⟨hcell, -, hnone⟩
        exact ⟨hcell, hnone⟩
      · rintro ⟨hcell, hnone⟩
        exact ⟨hcell, fun h => absurd h hcell, hnone⟩

/-- Compared with a difference a leaf keeps exactly what it does not match, provided that the
database takes its values and none of them is undefined. -/
theorem holds_distinct (haccepted : leaf.Accepted) (hdefined : leaf.Defined) :
    (leaf.filter .distinct source).holds a = true ↔ ¬ leaf.MatchesRow (a source) := by
  obtain ⟨c, operand⟩ := leaf
  cases operand with
  | one value => exact holds_distinct_one (a.read_eq _) haccepted hdefined
  | many values => exact holds_distinct_many (a.read_eq _) haccepted hdefined

/-- On an empty cell a difference fails for the leaves that ask for it, and for no others. -/
theorem holds_distinct_of_empty (haccepted : leaf.Accepted)
    (hempty : leaf.column.cell (a source) = .null) :
    (leaf.filter .distinct source).holds a = true ↔ ¬ leaf.AsksForEmpty := by
  obtain ⟨stored, hstored⟩ := haccepted
  obtain ⟨c, operand⟩ := leaf
  have hread : a.read ⟨source, c⟩ = .null := by
    rw [a.read_eq]
    exact hempty
  cases operand with
  | one value =>
      have hsingle : ∃ k, Binding.single c value = .ok k := by
        by_cases hv : value = .null
        · exact ⟨.null, by rw [hv]; rfl⟩
        · rw [Operand.present_one_of_ne_null hv, Binding.list_singleton hv,
            Success.map_eq_ok_iff] at hstored
          obtain ⟨k, hk, -⟩ := hstored
          exact ⟨k, hk⟩
      obtain ⟨k, hk⟩ := hsingle
      show _ ↔ ¬ Binding.single c value = .ok .null
      rw [filter_distinct_one, hk]
      simp only [Filter.holds, Filter.truth, beq_iff_eq, Option.some.injEq, hread, Filter.operand,
        hk, Except.toOption, Option.getD_some]
      cases k <;> simp [Cell.same, Cell.quantity?]
  | many values =>
      show _ ↔ ¬ Value.null ∈ values
      simp only [filter, Filter.membership]
      cases hany : values.any Value.isNull with
      | false =>
          have hmem : Value.null ∉ values := by
            rw [← Operand.any_isNull_iff, hany]
            simp
          simp [Filter.holds, Filter.truth, hread, hmem, Cell.isNull]
      | true =>
          have hmem := Operand.any_isNull_iff.1 hany
          simp [Filter.holds, Filter.truth, hread, hmem, Cell.isNull]

end Holds

end Leaf

end RowAccess
