import RowAccess.Proofs.TreeFilter
/-!
# Conditions read from other sources

Positions that stand for the same place in a tree but read its columns from different sources.
Whatever compiles at one of them compiles at the other, to the same filter of the other sources.
-/

namespace RowAccess

/-- A filter that reads its columns from other sources. -/
def Filter.mapSources {M : Type} (g : Source M → Source M) : Filter M → Filter M
  | .compare comparator c v => .compare comparator ⟨g c.source, c.column⟩ v
  | .isNull c => .isNull ⟨g c.source, c.column⟩
  | .isNotNull c => .isNotNull ⟨g c.source, c.column⟩
  | .among c values => .among ⟨g c.source, c.column⟩ values
  | .notAmong c values => .notAmong ⟨g c.source, c.column⟩ values
  | .both left right => .both (left.mapSources g) (right.mapSources g)
  | .either left right => .either (left.mapSources g) (right.mapSources g)
  | .never => .never

/-- A restriction that reads its columns from other sources. -/
def Restriction.mapSources {M : Type} (g : Source M → Source M) : Restriction M → Restriction M
  | .filtered f => .filtered (f.mapSources g)
  | .absent => .absent
  | .lifted position rule => .lifted position rule

/-- Pairs of positions that differ in their sources only, as `g` tells, and stay such pairs wherever
the first of them can descend. -/
structure Position.Carries {M : Type} (S : Schema M) (g : Source M → Source M)
    (R : Position M → Position M → Prop) : Prop where
  model : ∀ {p q}, R p q → q.model = p.model
  reflector : ∀ {p q}, R p q → q.reflector = p.reflector
  source : ∀ {p q}, R p q → q.source = g p.source
  descend : ∀ {p q key child}, R p q → p.descend S key = .ok child →
    ∃ child', q.descend S key = .ok child' ∧ R child child'

section Filters

variable {M : Type} (g : Source M → Source M)

@[simp] theorem Filter.mapSources_id : Filter.mapSources (M := M) id = id := by
  funext f
  induction f with
  | both left right ihleft ihright | either left right ihleft ihright =>
      rw [mapSources, ihleft, ihright]
      rfl
  | _ => rfl

@[simp] theorem Restriction.mapSources_id (restriction : Restriction M) :
    restriction.mapSources id = restriction := by
  cases restriction <;> simp [mapSources]

theorem Filter.all_mapSources (first : Filter M) (rest : List (Filter M)) :
    (Filter.all first rest).mapSources g =
      Filter.all (first.mapSources g) (rest.map (Filter.mapSources g)) := by
  unfold Filter.all
  induction rest generalizing first with
  | nil => rfl
  | cons second rest ih => exact ih (.both first second)

theorem Leaf.filter_mapSources (leaf : Leaf) (comparator : Comparator) (source : Source M) :
    (leaf.filter comparator source).mapSources g = leaf.filter comparator (g source) := by
  obtain ⟨c, operand⟩ := leaf
  cases operand with
  | one value => cases comparator <;> cases value <;> rfl
  | many values =>
      simp only [filter, Filter.membership]
      split <;> rfl

theorem Rule.extend_mapSources (rule : Rule) (filter : Filter M) (before : Option (Filter M)) :
    (rule.extend filter before).mapSources g =
      rule.extend (filter.mapSources g) (before.map (Filter.mapSources g)) := by
  cases before with
  | none => rfl
  | some b =>
      simp only [extend, Option.map_some]
      split <;> rfl

theorem Position.conjunction_mapSources {p q : Position M} {tree : Value}
    {filters : List (Filter M)} {filter : Filter M}
    (h : p.conjunction tree filters = .ok filter) :
    q.conjunction tree (filters.map (Filter.mapSources g)) = .ok (filter.mapSources g) := by
  cases filters with
  | nil => cases h
  | cons first rest =>
      cases h
      rw [Filter.all_mapSources]
      rfl

end Filters

variable {M : Type} [DecidableEq M] {S : Schema M} {g : Source M → Source M}
  {R : Position M → Position M → Prop}

namespace Position.Carries

theorem comparisons (h : Carries S g R) {comparator : Comparator} (entries : List (Value × Value))
    {p q : Position M} (hpq : R p q) {filters : List (Filter M)}
    (hfilters : Position.comparisons S comparator p entries = .ok filters) :
    Position.comparisons S comparator q entries = .ok (filters.map (Filter.mapSources g)) := by
  induction entries using Value.entries_induction generalizing p q filters with
  | nil =>
      rw [Position.comparisons] at hfilters ⊢
      cases hfilters
      rfl
  | leaf key value rest hvalue ih =>
      obtain ⟨filter, others, hfilter, hothers, rfl⟩ := comparisons_cons_eq_ok_iff.1 hfilters
      obtain ⟨leaf, hleaf, rfl⟩ := (comparison_leaf_eq_ok_iff hvalue).1 hfilter
      refine comparisons_cons_eq_ok_iff.2 ⟨_, _, ?_, ih hpq hothers, rfl⟩
      rw [← h.model hpq, ← h.reflector hpq] at hleaf
      rw [Leaf.filter_mapSources, ← h.source hpq]
      exact (comparison_leaf_eq_ok_iff hvalue).2 ⟨leaf, hleaf, rfl⟩
  | nested key packing entries rest ihEntries ihRest =>
      obtain ⟨filter, others, hfilter, hothers, rfl⟩ := comparisons_cons_eq_ok_iff.1 hfilters
      obtain ⟨child, inner, hchild, hinner, hall⟩ := comparison_nested_eq_ok_iff.1 hfilter
      obtain ⟨child', hchild', hrelated⟩ := h.descend hpq hchild
      have hfilter' := comparison_nested_eq_ok_iff.2
        ⟨child', _, hchild', ihEntries hrelated hinner, conjunction_mapSources g hall⟩
      exact comparisons_cons_eq_ok_iff.2 ⟨_, _, hfilter', ihRest hpq hothers, rfl⟩

end Position.Carries

namespace Rule

variable {model : M} {reflector : Reflector M} {joins joins' : Option (JoinSet M)}

theorem filter?_carried (h : Position.Carries S g R)
    (hroot : R (.root model joins reflector) (.root model joins' reflector)) {rule : Rule}
    {filter : Option (Filter M)} (hfilter : rule.filter? S model joins reflector = .ok filter) :
    rule.filter? S model joins' reflector = .ok (filter.map (Filter.mapSources g)) := by
  unfold filter? at hfilter ⊢
  split at hfilter
  · split at hfilter
    · rename_i hempty
      cases hfilter
      rw [if_pos hempty]
      rfl
    · rename_i hentries
      obtain ⟨found, hfound, rfl⟩ := Success.map_eq_ok_iff.1 hfilter
      obtain ⟨filters, hfilters, hall⟩ := Success.bind_eq_ok_iff.1 hfound
      rw [if_neg hentries, Success.map_eq_ok_iff]
      exact ⟨found.mapSources g, Success.bind_eq_ok_iff.2
        ⟨_, h.comparisons _ hroot hfilters, Position.conjunction_mapSources g hall⟩, rfl⟩
  · cases hfilter

/-- Rules compile to the same filter of the other sources. -/
theorem compileFrom_carried (h : Position.Carries S g R)
    (hroot : R (.root model joins reflector) (.root model joins' reflector)) {position : Nat}
    {before : Option (Filter M)} {rules : List Rule} {restriction : Restriction M}
    (hcompile : compileFrom S model joins reflector position before rules = .ok restriction) :
    compileFrom S model joins' reflector position (before.map (Filter.mapSources g)) rules =
      .ok (restriction.mapSources g) := by
  induction rules generalizing position before with
  | nil =>
      cases before with
      | none | some b =>
          cases hcompile
          rfl
  | cons rule rules ih =>
      obtain ⟨found, hfound, hrest⟩ := Success.bind_eq_ok_iff.1 hcompile
      rw [compileFrom, Success.bind_ok (filter?_carried h hroot hfound)]
      cases found with
      | none =>
          cases hrest
          rfl
      | some filter =>
          rw [Option.map_some]
          dsimp only
          rw [← extend_mapSources]
          exact ih hrest

end Rule

end RowAccess
