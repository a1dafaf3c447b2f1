import RowAccess.Proofs.RootRows
/-!
# Statements that rules were applied to

Applying rules to a statement on a model keeps the rows for which some choice of related rows
satisfies the rules, folded from left to right. A choice puts one related row along every path to a
nested tree, or none where nothing is related; it is independent of the sources and the joins that
the statement is made of.
-/

namespace RowAccess

/-- A choice of rows along paths of relationships: the root's own row, along every path of nested
trees a row related to the one before, or none if there is none, and nothing elsewhere. -/
structure Database.Along {M : Type} (db : Database M) (S : Schema M) (model : M)
    (nested : JoinPath → Prop) (x : Row) (rows : JoinPath → Option Row) : Prop where
  root : rows [] = some x
  related : ∀ path name, nested (path ++ [name]) → ∃ parent r, S.follow model path = some parent ∧
    (S.model parent).relationship? name = some r ∧ db.Chosen r (rows path) (rows (path ++ [name]))
  elsewhere : ∀ path, path ≠ [] → ¬ nested path → rows path = none

namespace JoinSet

variable {M : Type} {S : Schema M} {db : Database M} {joins : JoinSet M}

theorem exists_sourceFor (h : joins.Sound S) {path : JoinPath} :
    (∃ source, joins.sourceFor path = .ok source) ↔ path = [] ∨ path ∈ joins.paths := by
  simp only [sourceFor_eq_ok_iff h, exists_or, exists_and_left, exists_eq, and_true]
  refine or_congr_right ⟨?_, fun hpath => ?_⟩
  · rintro ⟨source, j, hj, rfl, -⟩
    exact List.mem_map_of_mem hj
  · obtain ⟨j, hj, rfl⟩ := List.mem_map.1 hpath
    exact ⟨joins.sourceOf j, j, hj, rfl, rfl⟩

/-- A source stands for one path only: joined sources carry their path. -/
theorem sourceFor_inj (h : joins.Sound S) {path path' : JoinPath} {source : Source M}
    (hpath : joins.sourceFor path = .ok source) (hpath' : joins.sourceFor path' = .ok source) :
    path = path' := by
  rcases (sourceFor_eq_ok_iff h).1 hpath with ⟨rfl, rfl⟩ | ⟨j, hj, rfl, rfl⟩ <;>
    rcases (sourceFor_eq_ok_iff h).1 hpath' with ⟨rfl, heq⟩ | ⟨k, hk, rfl, heq⟩
  · rfl
  · simp [Source.own, sourceOf] at heq
  · simp [Source.own, sourceOf] at heq
  · simp only [sourceOf, Source.mk.injEq, Role.joined.injEq] at heq
    exact heq.2.2

/-- The source that a join starts from is the one joined along the parent path. -/
theorem sourceFor_parents (h : joins.Sound S) {j : Joined M} (hj : j ∈ joins.joined)
    {parents : JoinPath} {name : String} (hpath : j.path = parents ++ [name]) :
    joins.sourceFor parents = .ok (joins.parentOf j) := by
  have hresolved := h.resolved hj
  obtain ⟨parents', hpath', hfollow, -⟩ := hresolved
  obtain ⟨rfl, -⟩ := List.append_inj' (hpath.symm.trans hpath') rfl
  rw [sourceFor_eq_ok_iff h]
  by_cases hparents : parents = []
  · subst hparents
    have hmodel : j.parent = joins.model := (Option.some.inj hfollow).symm
    exact .inl ⟨rfl, by simp [parentOf, hpath, hmodel]⟩
  · right
    have hlinked := h.linked.parent_mem (j := ⟨joins.parentOf j, j.relationship, joins.sourceOf j⟩)
      (List.mem_map_of_mem hj)
    have hparent : joins.parentOf j = ⟨j.parent, .joined joins.scope parents⟩ := by
      cases parents with
      | nil => exact absurd rfl hparents
      | cons first rest => simp [parentOf, hpath, List.dropLast]
    rw [hparent] at hlinked ⊢
    rcases hlinked with hroot | htarget
    · simp [Source.own] at hroot
    · rw [targets_eq] at htarget
      obtain ⟨k, hk, heq⟩ := List.mem_map.1 htarget
      have hkpath : k.path = parents := by
        simp only [sourceOf, Source.mk.injEq, Role.joined.injEq] at heq
        exact heq.2.2
      exact ⟨k, hk, hkpath, heq.symm⟩

/-- What an assignment puts along the joined paths is a choice of rows. -/
theorem along_rowsAlong (h : joins.Sound S) {a : Assignment M} {x : Row}
    (hx : a (.own joins.model) = some x) (hrespects : db.Respects joins.joins a) :
    db.Along S joins.model (· ∈ joins.paths) x (joins.rowsAlong a) where
  root := by
    have hroot : joins.sourceFor [] = .ok (.own joins.model) := rfl
    rw [rowsAlong_eq hroot, hx]
  related := by
    intro path name hpath
    obtain ⟨j, hj, hjpath⟩ := List.mem_map.1 hpath
    obtain ⟨parents, hparents, hfollow, hr⟩ := h.resolved hj
    obtain ⟨rfl, hname⟩ := List.append_inj' (hjpath.symm.trans hparents) rfl
    obtain rfl := List.singleton_inj.1 hname
    refine ⟨j.parent, j.relationship, hfollow, hr, ?_⟩
    have hsource : joins.sourceFor (path ++ [j.relationship.name]) = .ok (joins.sourceOf j) :=
      (sourceFor_eq_ok_iff h).2 (.inr ⟨j, hj, hjpath, rfl⟩)
    rw [rowsAlong_eq (sourceFor_parents h hj hjpath), rowsAlong_eq hsource]
    exact hrespects _ (List.mem_map_of_mem hj)
  elsewhere := by
    intro path hne hpath
    have hnone := mt (exists_sourceFor h).1 (not_or.2 ⟨hne, hpath⟩)
    rw [rowsAlong]
    cases hsource : joins.sourceFor path with
    | error fault => rfl
    | ok source => exact absurd ⟨source, hsource⟩ hnone

/-- Every choice of rows along the joined paths comes from an assignment. -/
theorem exists_rowsAlong (h : joins.Sound S) {x : Row} {rows : JoinPath → Option Row}
    (hrows : db.Along S joins.model (· ∈ joins.paths) x rows) :
    ∃ a : Assignment M, a (.own joins.model) = some x ∧ db.Respects joins.joins a ∧
      joins.rowsAlong a = rows := by
  obtain ⟨a, ha⟩ : ∃ a : Assignment M, ∀ path source, joins.sourceFor path = .ok source →
      a source = rows path := by
    classical
    refine ⟨fun source => if h : ∃ path, joins.sourceFor path = .ok source then
      rows h.choose else none, fun path source hsource => ?_⟩
    have hfound : ∃ path, joins.sourceFor path = .ok source := ⟨path, hsource⟩
    rw [← sourceFor_inj h hfound.choose_spec hsource]
    exact dif_pos hfound
  have hroot : joins.sourceFor [] = .ok (.own joins.model) := rfl
  refine ⟨a, ?_, ?_, ?_⟩
  · rw [ha [] _ hroot, hrows.root]
  · intro k hk
    obtain ⟨j, hj, rfl⟩ := List.mem_map.1 hk
    obtain ⟨parents, hparents, hfollow, hr⟩ := h.resolved hj
    obtain ⟨parent, r, hfollow', hr', hchosen⟩ := hrows.related parents j.relationship.name
      (hparents ▸ List.mem_map_of_mem hj)
    obtain rfl := Option.some.inj (hfollow.symm.trans hfollow')
    obtain rfl := Option.some.inj (hr.symm.trans hr')
    have hsource : joins.sourceFor (parents ++ [j.relationship.name]) = .ok (joins.sourceOf j) :=
      (sourceFor_eq_ok_iff h).2 (.inr ⟨j, hj, hparents, rfl⟩)
    show db.Chosen j.relationship (a (joins.parentOf j)) (a (joins.sourceOf j))
    rw [ha _ _ (sourceFor_parents h hj hparents), ha _ _ hsource]
    exact hchosen
  · funext path
    rw [rowsAlong]
    cases hsource : joins.sourceFor path with
    | ok source => exact ha path source hsource
    | error fault =>
        have hnone : ¬ (path = [] ∨ path ∈ joins.paths) := by
          rw [← exists_sourceFor h, hsource]
          simp
        rw [not_or] at hnone
        exact (hrows.elsewhere path hnone.1 hnone.2).symm

end JoinSet

/-! ## Restricting a statement -/

namespace Select

variable {M : Type} {S : Schema M} {statement : Select M} {model : M} {rules : List Rule}
  {reflector : Reflector M}

theorem under_eq (statement : Select M) (restriction : Restriction M) :
    statement.under restriction =
      { statement with conditions := statement.conditions ++ restriction.filter?.toList } := by
  cases restriction <;> simp [under, filteredBy, Restriction.filter?]

variable [DecidableEq M]

theorem restrict_eq_ok_iff {restricted : Restricted M} :
    statement.restrict S model rules reflector = .ok restricted ↔
      ∃ joins restriction, statement.joinsFor S model rules reflector = (joins, none) ∧
        Rule.compile S model rules (some joins) reflector = .ok restriction ∧
        restricted = ⟨(statement.attach joins).under restriction, joins, restriction⟩ := by
  unfold restrict
  cases hjoins : statement.joinsFor S model rules reflector with
  | mk joins fault =>
      cases fault with
      | some fault => simp
      | none =>
          simp only [Success.bind_eq_ok_iff, Except.ok.injEq, Prod.mk.injEq, and_true]
          constructor
          · rintro ⟨restriction, hrestriction, rfl⟩
            exact ⟨joins, restriction, rfl, hrestriction, rfl⟩
          · rintro ⟨joins', restriction, rfl, hrestriction, rfl⟩
            exact ⟨restriction, hrestriction, rfl⟩

theorem applyRules_eq_ok_iff {distinct : Bool} {applied : Select M} :
    statement.applyRules S model rules reflector distinct = .ok applied ↔
      ∃ joins restriction, statement.joinsFor S model rules reflector = (joins, none) ∧
        Rule.compile S model rules (some joins) reflector = .ok restriction ∧
        applied = { statement with
          conditions := statement.conditions ++ restriction.filter?.toList
          joins := statement.joins ++ joins.joins
          scopes := max statement.scopes (joins.scope + 1)
          distinct := distinct || statement.distinct } := by
  simp only [applyRules, Success.bind_eq_ok_iff, restrict_eq_ok_iff, Except.ok.injEq]
  constructor
  · rintro ⟨restricted, ⟨joins, restriction, hjoins, hrestriction, rfl⟩, rfl⟩
    refine ⟨joins, restriction, hjoins, hrestriction, ?_⟩
    rw [under_eq]
    cases distinct <;> rfl
  · rintro ⟨joins, restriction, hjoins, hrestriction, rfl⟩
    refine ⟨_, ⟨joins, restriction, hjoins, hrestriction, rfl⟩, ?_⟩
    rw [under_eq]
    cases distinct <;> rfl

end Select

namespace Filter

variable {M : Type}

/-- No part of a filter is the one that no row satisfies as such. -/
def NeverFree : Filter M → Prop
  | .both left right | .either left right => NeverFree left ∧ NeverFree right
  | .never => False
  | _ => True

theorem NeverFree.isNever_eq_false {f : Filter M} (h : f.NeverFree) : f.isNever = false := by
  cases f with
  | never => exact h.elim
  | _ => rfl

end Filter

theorem Leaf.neverFree_filter {M : Type} (leaf : Leaf) (comparator : Comparator)
    (source : Source M) : (leaf.filter comparator source).NeverFree := by
  obtain ⟨c, operand⟩ := leaf
  cases operand with
  | one value =>
      cases comparator <;> cases value <;> simp [filter, Filter.comparison, Filter.NeverFree]
  | many values =>
      simp only [filter, Filter.membership]
      split <;> simp [Filter.NeverFree]

/-- What rules compile to is nowhere false as such. -/
theorem Rule.neverFree_compile {M : Type} [DecidableEq M] {S : Schema M} {model : M}
    {rules : List Rule} {reflector : Reflector M} {joins : JoinSet M} {f : Filter M}
    (hmodel : joins.model = model)
    (h : compile S model rules (some joins) reflector = .ok (.filtered f)) : f.NeverFree := by
  have hcompiled := (compileFrom_iff (P := fun _ => True) (by simp) (by simp) h).1 trivial
  refine (compileFrom_iff (P := Filter.NeverFree) (fun _ _ => Iff.rfl) (fun _ _ => Iff.rfl) h).2
    ⟨by simp, fun rule hrule => ?_⟩
  obtain ⟨filter, hfilter, -⟩ := hcompiled.2 rule hrule
  refine ⟨filter, hfilter, ?_⟩
  rw [filter?_iff (P := Filter.NeverFree) (fun _ _ => Iff.rfl) hmodel hfilter]
  apply (filter?_sources hmodel hfilter).imp
  rintro path leaf ⟨source, hsource⟩
  exact ⟨source, hsource, Leaf.neverFree_filter leaf _ source⟩

namespace Restriction

theorem mem_filter?_iff {M : Type} {restriction : Restriction M} {f : Filter M} :
    f ∈ restriction.filter?.toList ↔ restriction = .filtered f := by
  cases restriction <;> simp [filter?, eq_comm]

variable {M : Type} [DecidableEq M] {S : Schema M} {model : M} {rules : List Rule}
  {reflector : Reflector M} {joins : JoinSet M} {restriction : Restriction M}

theorem isNever_compile (hmodel : joins.model = model)
    (h : Rule.compile S model rules (some joins) reflector = .ok restriction) :
    ∀ f ∈ restriction.filter?.toList, f.isNever = false := by
  intro f hf
  rw [mem_filter?_iff] at hf
  subst hf
  exact (Rule.neverFree_compile hmodel h).isNever_eq_false

/-- Rules close no statement: one that they were applied to is closed by its own conditions only. -/
theorem isClosed_iff (hmodel : joins.model = model)
    (h : Rule.compile S model rules (some joins) reflector = .ok restriction) {s : Select M}
    {own : List (Filter M)} (hconditions : s.conditions = own ++ restriction.filter?.toList) :
    s.IsClosed ↔ ∃ f ∈ own, f.isNever = true :=
  Select.isClosed_iff_of_append hconditions (isNever_compile hmodel h)

/-- With conditions from rules alone a statement hands over the values of all of them. -/
theorem taken_iff (hmodel : joins.model = model)
    (h : Rule.compile S model rules (some joins) reflector = .ok restriction) {s : Select M}
    (hconditions : s.conditions = restriction.filter?.toList) :
    s.Taken ↔ ∀ f ∈ restriction.filter?.toList, f.checkValues = .ok () := by
  have hopen : ¬ s.IsClosed := by
    have hclosed : s.IsClosed ↔ ∃ f : Filter M, f ∈ [] ∧ f.isNever = true :=
      isClosed_iff hmodel h hconditions
    simp [hclosed]
  rw [Select.taken_iff_of_open hopen, hconditions]

/-- A restriction reads nothing but the root and what is joined to it. -/
theorem source_mem_of_compile (hsound : joins.Sound S) (hmodel : joins.model = model)
    (h : Rule.compile S model rules (some joins) reflector = .ok restriction) :
    ∀ f ∈ restriction.filter?.toList, ∀ s ∈ Layout.filterSources f,
      s = .own joins.model ∨ s ∈ joins.joins.map (·.target) := by
  intro f hf s hs
  rw [mem_filter?_iff] at hf
  subst hf
  have hsources : ∀ s ∈ Layout.filterSources f, ∃ path, joins.sourceFor path = .ok s := by
    refine (Rule.compileFrom_iff
      (P := fun f => ∀ s ∈ Layout.filterSources f, ∃ path, joins.sourceFor path = .ok s)
      ?_ ?_ h).2 ⟨by simp, fun rule hrule => ?_⟩
    · intro left right
      simp only [Layout.filterSources, List.mem_append, or_imp, forall_and]
    · intro left right
      simp only [Layout.filterSources, List.mem_append, or_imp, forall_and]
    · obtain ⟨filter, hfilter, -⟩ := ((Rule.compileFrom_iff (P := fun _ => True) (by simp) (by simp)
        h).1 trivial).2 rule hrule
      exact ⟨filter, hfilter, Rule.sources_filter? hmodel hfilter⟩
  obtain ⟨path, hpath⟩ := hsources s hs
  exact JoinSet.source_mem hsound hpath

/-- The database takes the values of a filter if it takes those of all rules it came from. -/
theorem checkValues_compile (hmodel : joins.model = model) {f : Filter M}
    (h : Rule.compile S model rules (some joins) reflector = .ok (.filtered f)) :
    f.checkValues = .ok () ↔ ∀ rule ∈ rules, rule.Accepted S reflector model := by
  have hcompiled := (Rule.compileFrom_iff (P := fun _ => True) (by simp) (by simp) h).1 trivial
  rw [Rule.compileFrom_iff (P := fun f => f.checkValues = .ok ()) Filter.checkValues_both
    Filter.checkValues_either h]
  simp only [reduceCtorEq, false_implies, implies_true, true_and]
  refine forall_congr' fun rule => imp_congr_right fun hrule => ?_
  obtain ⟨filter, hfilter, -⟩ := hcompiled.2 rule hrule
  rw [← Rule.checkValues_filter? hmodel hfilter]
  simp [hfilter]

/-- An assignment satisfies the filter that rules come to if the rows it puts along the joined
paths satisfy the rules, folded from left to right. -/
theorem holds_compile (hmodel : joins.model = model) {f : Filter M} {a : Assignment M}
    (h : Rule.compile S model rules (some joins) reflector = .ok (.filtered f))
    (haccepted : ∀ rule ∈ rules, rule.Accepted S reflector model)
    (hdefined : ∀ rule ∈ rules, rule.allows = false → rule.Defined S reflector model) :
    f.holds a = true ↔
      Rule.foldTruth (Rule.Satisfied S reflector model (joins.rowsAlong a)) rules := by
  have hcompiled := (Rule.compileFrom_iff (P := fun _ => True) (by simp) (by simp) h).1 trivial
  rw [Rule.compile_holds h]
  apply Rule.foldTruth_congr
  intro rule hrule
  obtain ⟨filter, hfilter, -⟩ := hcompiled.2 rule hrule
  rw [← Rule.holds_filter? hmodel hfilter (haccepted rule hrule) (hdefined rule hrule)]
  simp [Rule.Keeps, hfilter]

end Restriction

end RowAccess
