import RowAccess.Proofs.LeafMatching
/-!
# How true a leaf is

What a leaf becomes as a filter is written in many shapes: a comparison, a question for the empty
cell, a membership, or two of these put together. Its truth has one form all the same: the question
for the empty cell or one of the stored values, and for the difference of deny rules the opposite of
that, which is never unknown. In a collection the first member decides how all are stored; as long
as that makes no difference, only the set of the members counts.
-/

namespace RowAccess

namespace Truth

theorem both_ne_false {s t : Truth} :
    both s t ≠ some false ↔ s ≠ some false ∧ t ≠ some false := by
  rcases s with _ | _ | _ <;> rcases t with _ | _ | _ <;> simp [both]

/-- Truths are equal that are true together and false together. -/
theorem eq_of_iff {s t : Truth} (htrue : s = some true ↔ t = some true)
    (hfalse : s ≠ some false ↔ t ≠ some false) : s = t := by
  rcases s with _ | _ | _ <;> rcases t with _ | _ | _ <;> simp_all

@[simp] theorem either_false_left (t : Truth) : either (some false) t = t := by
  rcases t with _ | _ | _ <;> rfl

@[simp] theorem either_false_right (t : Truth) : either t (some false) = t := by
  rcases t with _ | _ | _ <;> rfl

@[simp] theorem either_true_left (t : Truth) : either (some true) t = some true := by
  rcases t with _ | _ | _ <;> rfl

@[simp] theorem both_false_left (t : Truth) : both (some false) t = some false := by
  rcases t with _ | _ | _ <;> rfl

theorem any_ne_none {ts : List Truth} (h : none ∉ ts) : any ts ≠ none := by
  induction ts with
  | nil => simp [any]
  | cons t ts ih =>
      obtain ⟨ht, hts⟩ := not_or.1 (mt List.mem_cons.2 h)
      have hrest := ih hts
      have hstep : any (t :: ts) = either t (any ts) := rfl
      rw [hstep]
      rcases t with _ | _ | _
      · exact absurd rfl ht
      · rwa [either_false_left]
      · simp

theorem any_congr {ts us : List Truth} (h : ∀ t, t ∈ ts ↔ t ∈ us) : any ts = any us := by
  refine eq_of_iff ?_ (not_congr ?_)
  · rw [any_eq_true, any_eq_true, h]
  · simp only [any_eq_false, h]

end Truth

/-! ## Members beside others -/

theorem Cell.equal_eq_none_iff {c d : Cell} : c.equal d = none ↔ c = .null ∨ d = .null := by
  rw [equal, ← isNull_iff, ← isNull_iff]
  cases c.isNull <;> cases d.isNull <;> simp

/-- Every cell compares with two cells alike. -/
def Cell.Alike (k k' : Cell) : Prop := ∀ cell : Cell, cell.equal k = cell.equal k'

namespace Binding

/-- What a value is compared as in a list that begins with another one. -/
def beside (c : Column) (first v : Value) : Except Fault Cell :=
  (parameter (Sql.writtenType c.type first) v).map c.affinity.adapt

theorem beside_self {c : Column} {v : Value} (hv : v ≠ .null) : beside c v v = single c v := by
  cases v with
  | null => exact absurd rfl hv
  | bool b => cases b <;> rfl
  | _ => rfl

/-- A value is taken in two places alike: in neither, or in both and as cells that compare alike. -/
def Agree (x y : Except Fault Cell) : Prop :=
  (∀ k, x = .ok k → ∃ k', y = .ok k' ∧ k.Alike k') ∧
    ∀ k', y = .ok k' → ∃ k, x = .ok k ∧ k.Alike k'

theorem Agree.refl (x : Except Fault Cell) : Agree x x :=
  ⟨fun k hk => ⟨k, hk, fun _ => rfl⟩, fun k hk => ⟨k, hk, fun _ => rfl⟩⟩

theorem list_cons (c : Column) (first : Value) (rest : List Value) :
    list c (first :: rest) = (first :: rest).mapM (beside c first) := rfl

end Binding

/-- A column holding a cell has a value: the absent value if the cell is empty, any other if the
database finds the cell equal to what the value is compared as. -/
def Column.Finds (c : Column) (v : Value) (cell : Cell) : Prop :=
  (v = .null ∧ cell = .null) ∨ ∃ k, Binding.single c v = .ok k ∧ cell.equal k = some true

namespace Operand

theorem mem_present {o : Operand} {v : Value} : v ∈ o.present ↔ v ∈ o.members ∧ v ≠ .null := by
  rw [present, List.mem_filter, Bool.not_eq_true', Bool.eq_false_iff, Ne, Value.isNull_iff]

end Operand

namespace Leaf

variable {leaf : Leaf} {cell : Cell}

/-- Every member is compared as it would be by itself, whichever member comes first. -/
def Steady (leaf : Leaf) : Prop :=
  ∀ first ∈ leaf.operand.present, ∀ v ∈ leaf.operand.present,
    Binding.Agree (Binding.beside leaf.column first v) (Binding.single leaf.column v)

/-- Members of one kind do not depend on the first one. -/
theorem steady_of_one_kind (h : ∀ v ∈ leaf.operand.present, ∀ w ∈ leaf.operand.present,
    Sql.writtenType leaf.column.type v = Sql.writtenType leaf.column.type w) : leaf.Steady := by
  intro first hfirst v hv
  have hsame : Binding.beside leaf.column first v = Binding.beside leaf.column v v := by
    rw [Binding.beside, h first hfirst v hv, Binding.beside]
  rw [hsame, Binding.beside_self (Operand.mem_present.1 hv).2]
  exact .refl _

theorem Steady.accepted_iff (h : leaf.Steady) :
    leaf.Accepted ↔ ∀ v ∈ leaf.operand.members, ∃ k, Binding.single leaf.column v = .ok k := by
  have hpresent : (∀ v ∈ leaf.operand.members, ∃ k, Binding.single leaf.column v = .ok k) ↔
      ∀ v ∈ leaf.operand.present, ∃ k, Binding.single leaf.column v = .ok k := by
    constructor
    · intro hall v hv
      exact hall v (Operand.mem_present.1 hv).1
    · intro hall v hv
      by_cases hnull : v = .null
      · exact ⟨.null, by rw [hnull]; rfl⟩
      · exact hall v (Operand.mem_present.2 ⟨hv, hnull⟩)
  rw [hpresent, Accepted]
  unfold Steady at h
  cases hmembers : leaf.operand.present with
  | nil => simp [Binding.list]
  | cons first rest =>
      rw [hmembers] at h
      rw [Binding.list_cons]
      have hall : (∃ stored, (first :: rest).mapM (Binding.beside leaf.column first) = .ok stored ∧
          ∀ k ∈ stored, True) ↔
            ∀ v ∈ first :: rest, ∃ k, Binding.beside leaf.column first v = .ok k ∧ True :=
        Success.exists_mapM_iff
      simp only [implies_true, and_true] at hall
      rw [hall]
      refine forall₂_congr fun v hv => ?_
      have hagree := h first (by simp) v hv
      constructor
      · rintro ⟨k, hk⟩
        obtain ⟨k', hk', -⟩ := hagree.1 k hk
        exact ⟨k', hk'⟩
      · rintro ⟨k', hk'⟩
        obtain ⟨k, hk, -⟩ := hagree.2 k' hk'
        exact ⟨k, hk⟩

/-- What a cell is compared with comes out as it does with the present members one by one. -/
theorem Steady.mem_outcomes (h : leaf.Steady) {stored : List Cell}
    (hstored : Binding.list leaf.column leaf.operand.present = .ok stored) (t : Truth) :
    t ∈ stored.map cell.equal ↔
      ∃ v ∈ leaf.operand.present, ∃ k, Binding.single leaf.column v = .ok k ∧ cell.equal k = t := by
  unfold Steady at h
  rw [List.mem_map]
  cases hmembers : leaf.operand.present with
  | nil =>
      rw [hmembers] at hstored
      cases hstored
      simp
  | cons first rest =>
      rw [hmembers] at h hstored
      constructor
      · rintro ⟨k, hk, rfl⟩
        obtain ⟨v, hv, hbeside⟩ := (Success.mem_of_mapM hstored).1 hk
        obtain ⟨k', hk', halike⟩ := (h first (by simp) v hv).1 k hbeside
        exact ⟨v, hv, k', hk', (halike cell).symm⟩
      · rintro ⟨v, hv, k', hk', rfl⟩
        obtain ⟨k, hk, halike⟩ := (h first (by simp) v hv).2 k' hk'
        exact ⟨k, (Success.mem_of_mapM hstored).2 ⟨v, hv, hk⟩, halike cell⟩

/-- An empty cell is handed over for a collection exactly if it is for one of its members. -/
theorem Steady.null_mem_iff (h : leaf.Steady) {stored : List Cell}
    (hstored : Binding.list leaf.column leaf.operand.present = .ok stored) :
    Cell.null ∈ stored ↔ ∃ v ∈ leaf.operand.present, Binding.single leaf.column v = .ok .null := by
  -- Compared with a cell that is not empty, exactly the empty ones leave it unknown.
  have hunknown : ∀ k : Cell, (Cell.int 0).equal k = none ↔ k = .null := fun k => by
    simp [Cell.equal_eq_none_iff]
  have houtcomes : none ∈ stored.map (Cell.int 0).equal ↔ _ := h.mem_outcomes hstored none
  simpa only [List.mem_map, hunknown, exists_eq_right, exists_eq_right_right] using houtcomes

/-- A leaf matches a cell that has one of its members. -/
theorem Steady.matches_iff (h : leaf.Steady) (haccepted : leaf.Accepted) :
    leaf.Matches cell ↔ ∃ v ∈ leaf.operand.members, leaf.column.Finds v cell := by
  obtain ⟨stored, hstored⟩ := haccepted
  have hsome : (∃ k ∈ stored, cell.equal k = some true) ↔
      ∃ v ∈ leaf.operand.present, ∃ k, Binding.single leaf.column v = .ok k ∧
        cell.equal k = some true := by
    rw [← h.mem_outcomes hstored, List.mem_map]
  simp only [Matches, hstored, Except.ok.injEq, exists_eq_left', hsome, Column.Finds]
  constructor
  · rintro (⟨hcell, hnull⟩ | ⟨v, hv, hfinds⟩)
    · exact ⟨.null, hnull, .inl ⟨rfl, hcell⟩⟩
    · exact ⟨v, (Operand.mem_present.1 hv).1, .inr hfinds⟩
  · rintro ⟨v, hv, ⟨rfl, hcell⟩ | ⟨k, hk, hequal⟩⟩
    · exact .inl ⟨hcell, hv⟩
    · have hnull : v ≠ .null := by
        rintro rfl
        cases hk
        simp at hequal
      exact .inr ⟨v, Operand.mem_present.2 ⟨hv, hnull⟩, k, hk, hequal⟩

/-! ## The truth of a leaf -/

variable {M : Type} {a : Assignment M} {source : Source M}

/-- Compared with equality a leaf is as true as the question for the empty cell, if that is asked,
or one of the stored values. -/
theorem truth_equal {stored : List Cell}
    (hstored : Binding.list leaf.column leaf.operand.present = .ok stored) :
    (leaf.filter .equal source).truth a =
      Truth.either (some (leaf.operand.members.any Value.isNull &&
        (leaf.column.cell (a source)).isNull))
        (Truth.any (stored.map (leaf.column.cell (a source)).equal)) := by
  obtain ⟨c, operand⟩ := leaf
  have hread : a.read ⟨source, c⟩ = c.cell (a source) := a.read_eq _
  cases operand with
  | one v =>
      by_cases hv : v = .null
      · subst hv
        cases hstored
        simp [filter, Filter.comparison, Filter.truth, hread, Operand.members, Value.isNull,
          Truth.any]
      · have hnull : v.isNull = false := Bool.eq_false_iff.2 (mt Value.isNull_iff.1 hv)
        rw [Operand.present_one_of_ne_null hv, Binding.list_singleton hv,
          Success.map_eq_ok_iff] at hstored
        obtain ⟨k, hk, rfl⟩ := hstored
        rw [filter_one hv]
        simp [Filter.truth, Filter.operand, hk, hread, Operand.members, hnull, Except.toOption,
          Truth.any]
  | many values =>
      rw [Operand.present_many] at hstored
      simp only [filter, Filter.membership, Operand.members]
      cases values.any Value.isNull <;>
        simp [Filter.truth, Filter.operands, hstored, hread, Except.toOption]

/-- The difference of deny rules is never unknown. -/
theorem truth_distinct_ne_none (haccepted : leaf.Accepted) (hdefined : leaf.Defined) :
    (leaf.filter .distinct source).truth a ≠ none := by
  obtain ⟨stored, hstored⟩ := haccepted
  have hnull := hdefined stored hstored
  obtain ⟨c, operand⟩ := leaf
  have hread : a.read ⟨source, c⟩ = c.cell (a source) := a.read_eq _
  cases operand with
  | one v => simp [filter_distinct_one, Filter.truth]
  | many values =>
      rw [Operand.present_many] at hstored
      by_cases hcell : c.cell (a source) = .null
      · simp only [filter, Filter.membership]
        cases values.any Value.isNull <;> simp [Filter.truth, hread, hcell, Cell.isNull]
      · have hany : Truth.any (stored.map (c.cell (a source)).equal) ≠ none := by
          refine Truth.any_ne_none fun hmem => ?_
          obtain ⟨k, hk, hequal⟩ := List.mem_map.1 hmem
          rcases Cell.equal_eq_none_iff.1 hequal with hempty | rfl
          · exact hcell hempty
          · exact hnull hk
        have hfull : (c.cell (a source)).isNull = false :=
          Bool.eq_false_iff.2 (mt Cell.isNull_iff.1 hcell)
        obtain ⟨b, hb⟩ := Option.ne_none_iff_exists'.1 hany
        simp only [filter, Filter.membership]
        cases values.any Value.isNull <;>
          simp [Filter.truth, Filter.operands, hstored, hread, hfull, Except.toOption, hb,
            Truth.negate, Truth.both]
        cases b <;> simp

/-- The difference of deny rules is false exactly for what the leaf matches. -/
theorem truth_distinct_eq_false (haccepted : leaf.Accepted) (hdefined : leaf.Defined) :
    (leaf.filter .distinct source).truth a = some false ↔ leaf.MatchesRow (a source) := by
  have htrue : (leaf.filter .distinct source).holds a = true ↔ ¬ leaf.MatchesRow (a source) :=
    holds_distinct haccepted hdefined
  have hknown : (leaf.filter .distinct source).truth a ≠ none :=
    truth_distinct_ne_none haccepted hdefined
  rw [Filter.holds, beq_iff_eq] at htrue
  rcases htruth : (leaf.filter .distinct source).truth a with _ | _ | _
  · exact absurd htruth hknown
  · simp_all
  · simp_all

/-! ## Leaves with the same members -/

/-- Two leaves ask about one column, for the same members. -/
structure SameMembers (leaf other : Leaf) : Prop where
  column : leaf.column = other.column
  members : ∀ v, v ∈ leaf.operand.members ↔ v ∈ other.operand.members

namespace SameMembers

variable {other : Leaf}

theorem mem_present (h : leaf.SameMembers other) (v : Value) :
    v ∈ leaf.operand.present ↔ v ∈ other.operand.present := by
  rw [Operand.mem_present, Operand.mem_present, h.members]

theorem steady (h : leaf.SameMembers other) (hsteady : leaf.Steady) : other.Steady := by
  intro first hfirst v hv
  rw [← h.column]
  exact hsteady first ((h.mem_present first).2 hfirst) v ((h.mem_present v).2 hv)

theorem accepted_iff (h : leaf.SameMembers other) (hsteady : leaf.Steady) :
    leaf.Accepted ↔ other.Accepted := by
  simp only [hsteady.accepted_iff, (h.steady hsteady).accepted_iff, h.column, h.members]

theorem defined (h : leaf.SameMembers other) (hsteady : leaf.Steady) (haccepted : leaf.Accepted)
    (hdefined : leaf.Defined) : other.Defined := by
  obtain ⟨stored, hstored⟩ := haccepted
  intro stored' hstored'
  have hnull := hdefined stored hstored
  rw [hsteady.null_mem_iff hstored] at hnull
  rw [(h.steady hsteady).null_mem_iff hstored', ← h.column]
  rintro ⟨v, hv, hsingle⟩
  exact hnull ⟨v, (h.mem_present v).2 hv, hsingle⟩

theorem matchesRow_iff (h : leaf.SameMembers other) (hsteady : leaf.Steady)
    (haccepted : leaf.Accepted) (row : Option Row) :
    leaf.MatchesRow row ↔ other.MatchesRow row := by
  have hother := (h.accepted_iff hsteady).1 haccepted
  simp only [MatchesRow, hsteady.matches_iff haccepted, (h.steady hsteady).matches_iff hother,
    h.column, h.members]

theorem truth_equal (h : leaf.SameMembers other) (hsteady : leaf.Steady)
    (haccepted : leaf.Accepted) :
    (leaf.filter .equal source).truth a = (other.filter .equal source).truth a := by
  obtain ⟨stored', hstored'⟩ := (h.accepted_iff hsteady).1 haccepted
  obtain ⟨stored, hstored⟩ := haccepted
  have hnull : leaf.operand.members.any Value.isNull = other.operand.members.any Value.isNull := by
    rw [Bool.eq_iff_iff, Operand.any_isNull_iff, Operand.any_isNull_iff, h.members]
  rw [Leaf.truth_equal hstored, Leaf.truth_equal hstored', hnull, ← h.column]
  congr 1
  refine Truth.any_congr fun t => ?_
  rw [hsteady.mem_outcomes hstored, (h.steady hsteady).mem_outcomes hstored']
  simp only [h.mem_present, h.column]

theorem truth_distinct (h : leaf.SameMembers other) (hsteady : leaf.Steady)
    (haccepted : leaf.Accepted) (hdefined : leaf.Defined) :
    (leaf.filter .distinct source).truth a = (other.filter .distinct source).truth a := by
  have haccepted' := (h.accepted_iff hsteady).1 haccepted
  have hdefined' := h.defined hsteady haccepted hdefined
  have hsame := h.matchesRow_iff hsteady haccepted (a source)
  refine Truth.eq_of_iff ?_ (not_congr ?_)
  · have hholds : (leaf.filter .distinct source).holds a = true ↔
        (other.filter .distinct source).holds a = true := by
      rw [holds_distinct haccepted hdefined, holds_distinct haccepted' hdefined', hsame]
    simpa only [Filter.holds, beq_iff_eq] using hholds
  · rw [truth_distinct_eq_false haccepted hdefined, truth_distinct_eq_false haccepted' hdefined',
      hsame]

end SameMembers

end Leaf

end RowAccess
