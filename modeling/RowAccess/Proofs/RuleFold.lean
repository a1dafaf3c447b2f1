import RowAccess.Proofs.TreeFilter
/-!
# Rules folded from left to right

What a list of rules comes to when each of them has conditions: the truth of the first, to which
every allow rule adds and from which every deny rule takes away. A rule is satisfied by rows along
paths, one for each path its leaves stand at, whatever sources a statement reads these rows from.
-/

namespace RowAccess

/-- The rows that an assignment puts along the joined paths, the root's own row along the empty
path. -/
def JoinSet.rowsAlong {M : Type} (joins : JoinSet M) (a : Assignment M) : JoinPath → Option Row :=
  fun path => (joins.sourceFor path).toOption.bind a

theorem JoinSet.rowsAlong_eq {M : Type} {joins : JoinSet M} {a : Assignment M} {path : JoinPath}
    {source : Source M} (h : joins.sourceFor path = .ok source) :
    joins.rowsAlong a path = a source := by
  rw [rowsAlong, h]
  rfl

namespace Filter

variable {M : Type}

theorem checkValues_both (left right : Filter M) : (both left right).checkValues = .ok () ↔
    left.checkValues = .ok () ∧ right.checkValues = .ok () := by
  rw [checkValues, Success.bind_eq_ok_iff]
  constructor
  · rintro ⟨u, hleft, hright⟩
    exact ⟨hleft, hright⟩
  · rintro ⟨hleft, hright⟩
    exact ⟨(), hleft, hright⟩

theorem checkValues_either (left right : Filter M) : (either left right).checkValues = .ok () ↔
    left.checkValues = .ok () ∧ right.checkValues = .ok () :=
  checkValues_both left right

end Filter

namespace Rule

/-- The truth so far with that of one more rule. -/
def extendTruth (rule : Rule) (before truth : Prop) : Prop :=
  if rule.allows then before ∨ truth else before ∧ truth

/-- The truths of rules folded from left to right. -/
def foldTruth (truth : Rule → Prop) : List Rule → Prop
  | [] => True
  | first :: rest =>
    rest.foldl (fun before rule => rule.extendTruth before (truth rule)) (truth first)

theorem foldTruth_congr {t u : Rule → Prop} {rules : List Rule}
    (h : ∀ rule ∈ rules, (t rule ↔ u rule)) : foldTruth t rules ↔ foldTruth u rules := by
  have hfoldl : ∀ (rest : List Rule) (before : Prop), (∀ rule ∈ rest, (t rule ↔ u rule)) →
      (rest.foldl (fun before rule => rule.extendTruth before (t rule)) before ↔
        rest.foldl (fun before rule => rule.extendTruth before (u rule)) before) := by
    intro rest
    induction rest with
    | nil => exact fun before hrest => Iff.rfl
    | cons rule rest ih =>
        intro before hrest
        rw [List.foldl_cons, List.foldl_cons, propext (hrest rule (by simp))]
        exact ih _ fun r hr => hrest r (by simp [hr])
  cases rules with
  | nil => exact Iff.rfl
  | cons first rest =>
      rw [foldTruth, foldTruth, propext (h first (by simp))]
      exact hfoldl rest _ fun rule hrule => h rule (by simp [hrule])

theorem holds_extend {M : Type} (rule : Rule) (filter b : Filter M) (a : Assignment M) :
    (rule.extend filter (some b)).holds a = true ↔
      rule.extendTruth (b.holds a = true) (filter.holds a = true) := by
  simp only [extend, extendTruth]
  split <;> simp

variable {M : Type} [DecidableEq M] {S : Schema M}

/-- A rule is satisfied by rows along paths: an allow rule if all its leaves match, a deny rule if
none of them does. -/
def Satisfied (S : Schema M) (reflector : Reflector M) (model : M) (rows : JoinPath → Option Row)
    (rule : Rule) : Prop :=
  rule.AllLeaves S reflector model fun path leaf =>
    if rule.allows then leaf.MatchesRow (rows path) else ¬ leaf.MatchesRow (rows path)

/-- The database takes all values that the leaves of a rule compare with. -/
def Accepted (S : Schema M) (reflector : Reflector M) (model : M) (rule : Rule) : Prop :=
  rule.AllLeaves S reflector model fun _ leaf => leaf.Accepted

/-- No leaf of a rule compares with an undefined value. -/
def Defined (S : Schema M) (reflector : Reflector M) (model : M) (rule : Rule) : Prop :=
  rule.AllLeaves S reflector model fun _ leaf => leaf.Defined

variable {reflector : Reflector M} {model : M} {joins : JoinSet M} {rule : Rule}
  {filter : Filter M} {a : Assignment M}

/-! ## Single rules -/

/-- All leaves of a rule that compiles are read from sources. -/
theorem filter?_sources (hmodel : joins.model = model)
    (h : rule.filter? S model (some joins) reflector = .ok (some filter)) :
    rule.AllLeaves S reflector model fun path _ => ∃ source, joins.sourceFor path = .ok source := by
  have hall := (filter?_iff (P := fun _ => True) (by simp) hmodel h).1 trivial
  exact hall.imp fun path leaf ⟨source, hsource, _⟩ => ⟨source, hsource⟩

theorem checkValues_filter? (hmodel : joins.model = model)
    (h : rule.filter? S model (some joins) reflector = .ok (some filter)) :
    filter.checkValues = .ok () ↔ rule.Accepted S reflector model := by
  rw [filter?_iff (P := fun f => f.checkValues = .ok ()) Filter.checkValues_both hmodel h]
  refine allLeaves_congr ((filter?_sources hmodel h).imp fun path leaf hsource => ?_)
  obtain ⟨source, hsource⟩ := hsource
  simp [hsource, Leaf.checkValues_filter]

theorem holds_filter? (hmodel : joins.model = model)
    (h : rule.filter? S model (some joins) reflector = .ok (some filter))
    (haccepted : rule.Accepted S reflector model)
    (hdefined : rule.allows = false → rule.Defined S reflector model) :
    filter.holds a = true ↔ rule.Satisfied S reflector model (joins.rowsAlong a) := by
  rw [filter?_iff (P := fun f => f.holds a = true) (by simp) hmodel h]
  unfold Satisfied comparator
  cases hallows : rule.allows with
  | true =>
      refine allLeaves_congr ((filter?_sources hmodel h).imp ?_)
      rintro path leaf ⟨source, hsource⟩
      rw [hsource, JoinSet.rowsAlong_eq hsource]
      simp [Leaf.holds_equal]
  | false =>
      refine allLeaves_congr ((((filter?_sources hmodel h).and haccepted).and
        (hdefined hallows)).imp ?_)
      rintro path leaf ⟨⟨⟨source, hsource⟩, hleaf⟩, hvalues⟩
      rw [hsource, JoinSet.rowsAlong_eq hsource]
      simp [Leaf.holds_distinct hleaf hvalues]

theorem sources_filter? (hmodel : joins.model = model)
    (h : rule.filter? S model (some joins) reflector = .ok (some filter)) :
    ∀ s ∈ Layout.filterSources filter, ∃ path, joins.sourceFor path = .ok s := by
  rw [filter?_iff (P := fun f => ∀ s ∈ Layout.filterSources f, ∃ path, joins.sourceFor path = .ok s)
    ?_ hmodel h]
  · apply (filter?_sources hmodel h).imp
    rintro path leaf ⟨source, hsource⟩
    refine ⟨source, hsource, fun s hs => ?_⟩
    rw [Leaf.filterSources_filter leaf _ _ s hs]
    exact ⟨path, hsource⟩
  · intro left right
    simp only [Layout.filterSources, List.mem_append, or_imp, forall_and]

/-! ## The fold -/

/-- A rule compiles to a filter that an assignment satisfies. -/
def Keeps (S : Schema M) (model : M) (joins : Option (JoinSet M)) (reflector : Reflector M)
    (a : Assignment M) (rule : Rule) : Prop :=
  ∃ filter, rule.filter? S model joins reflector = .ok (some filter) ∧ filter.holds a = true

variable {joins : Option (JoinSet M)} {rules : List Rule} {position : Nat}
  {before : Option (Filter M)}

/-- Rules that all have conditions come to a filter. -/
theorem exists_filtered {restriction : Restriction M}
    (h : compileFrom S model joins reflector position before rules = .ok restriction)
    (hrules : ∀ rule ∈ rules, rule.unconditional = false)
    (hsome : before.isSome = true ∨ rules ≠ []) : ∃ f, restriction = .filtered f := by
  induction rules generalizing position before with
  | nil =>
      obtain ⟨b, rfl⟩ := Option.isSome_iff_exists.1 (hsome.resolve_right fun h => h rfl)
      cases h
      exact ⟨b, rfl⟩
  | cons rule rules ih =>
      obtain ⟨found, hfound, hrest⟩ := Success.bind_eq_ok_iff.1 h
      cases found with
      | none =>
          have hbare := filter?_eq_none hfound
          rw [hrules rule (by simp)] at hbare
          cases hbare
      | some filter => exact ih hrest (fun r hr => hrules r (by simp [hr])) (.inl rfl)

theorem compileFrom_cons {restriction : Restriction M}
    (h : compileFrom S model joins reflector position before (rule :: rules) = .ok restriction)
    (hfiltered : restriction.filter?.isSome = true) :
    ∃ filter, rule.filter? S model joins reflector = .ok (some filter) ∧
      compileFrom S model joins reflector (position + 1) (some (rule.extend filter before)) rules =
        .ok restriction := by
  obtain ⟨found, hfound, hrest⟩ := Success.bind_eq_ok_iff.1 h
  cases found with
  | none =>
      cases hrest
      simp [Restriction.filter?] at hfiltered
  | some filter => exact ⟨filter, hfound, hrest⟩

theorem compileFrom_holds {b f : Filter M}
    (h : compileFrom S model joins reflector position (some b) rules = .ok (.filtered f)) :
    f.holds a = true ↔ rules.foldl (fun before rule => rule.extendTruth before
      (rule.Keeps S model joins reflector a)) (b.holds a = true) := by
  induction rules generalizing position b with
  | nil =>
      cases h
      exact Iff.rfl
  | cons rule rules ih =>
      obtain ⟨filter, hfilter, hrest⟩ := compileFrom_cons h rfl
      have hkeeps : rule.Keeps S model joins reflector a ↔ filter.holds a = true := by
        simp [Keeps, hfilter]
      rw [ih hrest, List.foldl_cons, propext (holds_extend rule filter b a), propext hkeeps]

/-- The filter that rules come to is the fold of what the single rules compile to. -/
theorem compile_holds {f : Filter M}
    (h : compile S model rules joins reflector = .ok (.filtered f)) :
    f.holds a = true ↔ foldTruth (fun rule => rule.Keeps S model joins reflector a) rules := by
  cases rules with
  | nil => cases h
  | cons rule rules =>
      obtain ⟨filter, hfilter, hrest⟩ := compileFrom_cons h rfl
      have hkeeps : rule.Keeps S model joins reflector a ↔ filter.holds a = true := by
        simp [Keeps, hfilter]
      rw [compileFrom_holds hrest, foldTruth, propext hkeeps]
      exact Iff.rfl

/-- What passes through "and" and "or" holds of the filter that rules come to if it holds of what
each single rule compiles to. -/
theorem compileFrom_iff {P : Filter M → Prop}
    (hboth : ∀ left right, P (.both left right) ↔ P left ∧ P right)
    (heither : ∀ left right, P (.either left right) ↔ P left ∧ P right) {f : Filter M}
    (h : compileFrom S model joins reflector position before rules = .ok (.filtered f)) :
    P f ↔ (∀ b, before = some b → P b) ∧ ∀ rule ∈ rules,
      ∃ filter, rule.filter? S model joins reflector = .ok (some filter) ∧ P filter := by
  induction rules generalizing position before with
  | nil =>
      cases before with
      | none => cases h
      | some b =>
          cases h
          simp
  | cons rule rules ih =>
      obtain ⟨filter, hfilter, hrest⟩ := compileFrom_cons h rfl
      have hextend : P (rule.extend filter before) ↔ (∀ b, before = some b → P b) ∧ P filter := by
        cases before with
        | none => simp [extend]
        | some b =>
            unfold extend
            dsimp only
            split <;> simp [hboth, heither]
      rw [ih hrest, List.forall_mem_cons]
      simp only [Option.some.injEq, forall_eq', hextend, hfilter, Except.ok.injEq,
        exists_eq_left', and_assoc]

end Rule

end RowAccess
