import RowAccess.Proofs.AccessibleSteps
import RowAccess.Proofs.SingleChain
import RowAccess.Sample.Rows
/-!
# The tables that rules bring in

The plan of the joins and the compilation of the conditions walk the same trees, one by keys, the
other by positions. That they agree shows in the tables a statement reads: every path of nested
trees is joined exactly once and after its parent, every leaf is compared with a column of what is
joined along its own path, and nothing is read that stands beside the chain of the model, so rules
never make a statement combine unrelated rows.
-/

namespace RowAccess

namespace Filter

variable {M : Type}

/-- The single comparisons that a filter is put together from. -/
def atoms : Filter M → List (Filter M)
  | .both left right | .either left right => atoms left ++ atoms right
  | f => [f]

theorem forall_mem_atoms_both {Q : Filter M → Prop} (left right : Filter M) :
    (∀ part ∈ (both left right).atoms, Q part) ↔
      (∀ part ∈ left.atoms, Q part) ∧ ∀ part ∈ right.atoms, Q part := by
  rw [atoms, List.forall_mem_append]

theorem forall_mem_atoms_either {Q : Filter M → Prop} (left right : Filter M) :
    (∀ part ∈ (either left right).atoms, Q part) ↔
      (∀ part ∈ left.atoms, Q part) ∧ ∀ part ∈ right.atoms, Q part := by
  rw [atoms, List.forall_mem_append]

end Filter

theorem Leaf.filterSources_of_mem_atoms {M : Type} {leaf : Leaf} {comparator : Comparator}
    {source : Source M} {part : Filter M} (h : part ∈ (leaf.filter comparator source).atoms) :
    Layout.filterSources part = [source] := by
  obtain ⟨c, operand⟩ := leaf
  cases operand with
  | one value =>
      cases comparator <;> cases value <;>
        simp_all [filter, Filter.comparison, Filter.atoms, Layout.filterSources]
  | many values =>
      simp only [filter, Filter.membership] at h
      split at h <;> simp only [Filter.atoms, List.singleton_append, List.mem_cons,
        List.not_mem_nil, or_false] at h
      · rw [h, Layout.filterSources]
      · rcases h with rfl | rfl <;> rfl
      · rcases h with rfl | rfl <;> rfl
      · rcases h with rfl | rfl <;> rfl

/-- A comparison that some leaf of the rules asks for: it compares a column of the source that is
joined along the path to the leaf, and reads no other source. -/
def Rule.Compares {M : Type} [DecidableEq M] (S : Schema M) (reflector : Reflector M)
    (joins : JoinSet M) (rules : List Rule) (part : Filter M) : Prop :=
  ∃ rule ∈ rules, ∃ path key value leaf source, rule.conditions.LeafAt path key value ∧
    S.ReadsLeaf reflector joins.model path key value leaf ∧ joins.sourceFor path = .ok source ∧
    part ∈ (leaf.filter rule.comparator source).atoms ∧ Layout.filterSources part = [source]

/-- An outer join stands for a path: along the last name of the path it goes from what is joined
along the rest of it, the model itself if there is no rest, to what is joined along the whole. -/
def JoinSet.JoinsAlong {M : Type} (S : Schema M) (joins : JoinSet M) (path : JoinPath)
    (j : Join M) : Prop :=
  ∃ parents, path = parents ++ [j.relationship.name] ∧
    S.follow joins.model parents = some j.parent.model ∧
    (S.model j.parent.model).relationship? j.relationship.name = some j.relationship ∧
    joins.sourceFor parents = .ok j.parent ∧ joins.sourceFor path = .ok j.target ∧
    j.target.model = j.relationship.target

namespace JoinSet

variable {M : Type} {S : Schema M} {joins : JoinSet M}

theorem Grown.parents_first {model : M} {joined before after : List (Joined M)} {j : Joined M}
    (h : Grown S model joined) (heq : joined = before ++ j :: after) :
    j.path.dropLast = [] ∨ j.path.dropLast ∈ before.map (·.path) := by
  induction h generalizing after with
  | nil => simp at heq
  | @snoc joined parents parent r _ _ _ hparents _ ih =>
      rcases snoc_eq_append_cons heq with ⟨rfl, rfl⟩ | ⟨rest, hrest⟩
      · simpa using hparents
      · exact ih hrest

/-- What a joined path starts its last step from has the model of its parent. -/
theorem parentOf_model (joins : JoinSet M) (j : Joined M) :
    (joins.parentOf j).model = j.parent := by
  unfold parentOf
  split <;> rfl

theorem Sound.joinsAlong (h : joins.Sound S) {j : Joined M} (hj : j ∈ joins.joined) :
    joins.JoinsAlong S j.path ⟨joins.parentOf j, j.relationship, joins.sourceOf j⟩ := by
  obtain ⟨parents, hpath, hfollow, hr⟩ := h.resolved hj
  refine ⟨parents, hpath, ?_, ?_, sourceFor_parents h hj hpath, ?_, rfl⟩
  · rw [parentOf_model, hfollow]
  · rw [parentOf_model, hr]
  · exact (sourceFor_eq_ok_iff h).2 (.inr ⟨j, hj, rfl, rfl⟩)

/-- The joins of a join set stand for its paths, one for each and in the same order. -/
theorem Sound.forall₂_joinsAlong (h : joins.Sound S) :
    List.Forall₂ (joins.JoinsAlong S) joins.paths joins.joins := by
  rw [paths, JoinSet.joins, List.forall₂_map_left_iff, List.forall₂_map_right_iff,
    List.forall₂_same]
  exact fun j hj => h.joinsAlong hj

end JoinSet

namespace Rule

variable {M : Type} [DecidableEq M] {S : Schema M} {model : M} {rules : List Rule}
  {reflector : Reflector M} {joins : JoinSet M} {f : Filter M}

/-- What rules compile to consists of the comparisons that their leaves ask for. -/
theorem mem_atoms_compile (hmodel : joins.model = model)
    (h : compile S model rules (some joins) reflector = .ok (.filtered f)) {part : Filter M} :
    part ∈ f.atoms ↔ Compares S reflector joins rules part := by
  have hall : ∀ {Q : Filter M → Prop}, (∀ part ∈ f.atoms, Q part) ↔ ∀ rule ∈ rules,
      rule.AllLeaves S reflector model fun path leaf => ∃ source,
        joins.sourceFor path = .ok source ∧
        ∀ part ∈ (leaf.filter rule.comparator source).atoms, Q part := by
    intro Q
    have hcompiled := (compileFrom_iff (P := fun _ => True) (by simp) (by simp) h).1 trivial
    rw [compileFrom_iff (P := fun g => ∀ part ∈ g.atoms, Q part) Filter.forall_mem_atoms_both
      Filter.forall_mem_atoms_either h]
    simp only [reduceCtorEq, false_implies, implies_true, true_and]
    refine forall_congr' fun rule => imp_congr_right fun hrule => ?_
    obtain ⟨filter, hfilter, -⟩ := hcompiled.2 rule hrule
    rw [← filter?_iff (P := fun g => ∀ part ∈ g.atoms, Q part) Filter.forall_mem_atoms_both hmodel
      hfilter]
    simp [hfilter]
  constructor
  · refine fun hpart => hall.2 (fun rule hrule path key value hleaf => ?_) part hpart
    obtain ⟨leaf, hreads, source, hsource, -⟩ :=
      (hall (Q := fun _ => True)).1 (by simp) rule hrule path key value hleaf
    refine ⟨leaf, hreads, source, hsource, fun part hpart => ?_⟩
    exact ⟨rule, hrule, path, key, value, leaf, source, hleaf, hmodel ▸ hreads, hsource, hpart,
      Leaf.filterSources_of_mem_atoms hpart⟩
  · rintro ⟨rule, hrule, path, key, value, leaf, source, hleaf, hreads, hsource, hpart, -⟩
    obtain ⟨leaf', hreads', source', hsource', hincluded⟩ :=
      (hall (Q := (· ∈ f.atoms))).1 (fun _ => id) rule hrule path key value hleaf
    obtain rfl := hreads'.unique (hmodel ▸ hreads)
    obtain rfl := Except.ok.inj (hsource'.symm.trans hsource)
    exact hincluded part hpart

end Rule

namespace Select

variable {M : Type} [DecidableEq M]

/-- How the tables that a statement reads come from the rules applied to it. -/
structure ReadsAlong (S : Schema M) (model : M) (rules : List Rule) (reflector : Reflector M)
    (statement applied : Select M) (restricted : Restricted M) : Prop where
  /-- Joined is what the plans of the rules list, nothing less and nothing more. -/
  planned : ∀ path, path ∈ restricted.joins.paths ↔
    ∃ rule ∈ rules, ∃ keys ∈ rule.conditions.joinPaths, JoinSet.pathOf? keys = some path
  once : restricted.joins.paths.Nodup
  parentsFirst : ∀ before j after, restricted.joins.joined = before ++ j :: after →
    j.path.dropLast = [] ∨ j.path.dropLast ∈ before.map (·.path)
  attached : List.Forall₂ (restricted.joins.JoinsAlong S) restricted.joins.paths applied.joins
  root : restricted.joins.sourceFor [] = .ok (.own model)
  apart : ∀ path path' source, restricted.joins.sourceFor path = .ok source →
    restricted.joins.sourceFor path' = .ok source → path = path'
  compared : ∀ f, restricted.restriction = .filtered f → ∀ part,
    part ∈ f.atoms ↔ Rule.Compares S reflector restricted.joins rules part
  conditions : applied.conditions =
    statement.conditions ++ restricted.restriction.filter?.toList
  /-- What the rules compare stands on the chain of the model. -/
  held : ∀ f ∈ restricted.restriction.filter?.toList, ∀ source ∈ Layout.filterSources f,
    source ∈ Chain.sources ⟨.own model, applied.joins⟩
  /-- Besides the chain of the model only what was read before is read. -/
  chains : ∃ others : List (Source M),
    Layout.chains statement = .ok ({ root := .own model } :: others.map fun s => { root := s }) ∧
    Layout.chains applied = .ok (⟨.own model, applied.joins⟩ ::
      (others.filter fun s => !(applied.joins.map (·.target)).contains s).map fun s =>
        { root := s })

variable {S : Schema M} {model : M} {rules : List Rule} {reflector : Reflector M}
  {statement : Select M}

/-- Applying rules to a statement on a model that has no joins of its own. -/
theorem readsAlong_applyRules {distinct : Bool} {applied : Select M}
    (hselected : statement.selected = [.model model]) (hjoins : statement.joins = [])
    (happlied : statement.applyRules S model rules reflector distinct = .ok applied) :
    ∃ restricted, statement.restrict S model rules reflector = .ok restricted ∧
      applied = (if distinct then restricted.statement.deduplicated else restricted.statement) ∧
      ReadsAlong S model rules reflector statement applied restricted := by
  obtain ⟨restricted, hrestricted, heq⟩ := Success.bind_eq_ok_iff.1 happlied
  refine ⟨restricted, hrestricted, (Except.ok.inj heq).symm, ?_⟩
  obtain ⟨joins, restriction, hjoinsFor, hcompile, rfl⟩ := restrict_eq_ok_iff.1 hrestricted
  have hsound := JoinSet.sound_joinsFor hjoinsFor
  obtain ⟨hmodel, -, -⟩ := JoinSet.joinsFor_frame hjoinsFor
  have hattached : applied.joins = joins.joins ∧ applied.selected = [.model model] ∧
      applied.conditions = statement.conditions ++ restriction.filter?.toList := by
    rw [← Except.ok.inj heq, under_eq]
    cases distinct <;> simp [deduplicated, attach, hjoins, hselected]
  obtain ⟨happliedJoins, happliedSelected, hconditions⟩ := hattached
  have hlinked : Database.Linked [.own model] applied.joins := by
    rw [happliedJoins, ← hmodel]
    exact hsound.linked
  have hheld : ∀ f ∈ restriction.filter?.toList, ∀ source ∈ Layout.filterSources f,
      source ∈ Chain.sources ⟨.own model, applied.joins⟩ := by
    intro f hf source hsource
    rw [Chain.sources, List.mem_cons, happliedJoins, ← hmodel]
    exact Restriction.source_mem_of_compile hsound hmodel hcompile f hf source hsource
  refine ⟨fun path => ?_, hsound.nodup, fun before j after => JoinSet.Grown.parents_first hsound,
    ?_, ?_, fun path path' source => JoinSet.sourceFor_inj hsound, ?_, hconditions, hheld, ?_⟩
  · simp only [JoinSet.mem_paths_joinsFor hjoinsFor, Value.exists_joinPaths_iff]
  · rw [happliedJoins]
    exact hsound.forall₂_joinsAlong
  · rw [← hmodel]
    rfl
  · rintro f rfl part
    exact Rule.mem_atoms_compile hmodel hcompile
  · refine ⟨firstOccurrences id [.own model]
      (statement.conditions.flatMap Layout.filterSources), ?_, ?_⟩
    · have hnone : Database.Linked [.own model] statement.joins := by
        rw [hjoins]
        exact .nil
      rw [Layout.chains_of_linked hnone (by simp [hselected, Selected.source?]), hjoins]
      rfl
    · have hcompared : ∀ source ∈ restriction.filter?.toList.flatMap Layout.filterSources,
          id source ∈ Chain.sources ⟨.own model, applied.joins⟩ := by
        intro source hsource
        obtain ⟨f, hf, hmem⟩ := List.mem_flatMap.1 hsource
        exact hheld f hf source hmem
      have hseen : ∀ source, source ∈ Chain.sources ⟨.own model, applied.joins⟩ ↔
          source ∈ applied.joins.map (·.target) ++ [.own model] := by
        intro source
        rw [Chain.sources, List.mem_cons, List.mem_append, List.mem_singleton, or_comm]
      rw [Layout.chains_of_linked hlinked (by simp [happliedSelected, Selected.source?]),
        hconditions, List.flatMap_append, firstOccurrences_append_of_seen hcompared,
        firstOccurrences_congr hseen, firstOccurrences_append_seen]
      rfl

/-- Rules bring no table into a statement but those joined along their own paths, each of them once
and after its parent; and the source of a path that is not joined is never missed, neither when
rules are applied nor when a request is restricted, unless a rule function itself says so. -/
theorem no_dangling_source (S : Schema M) :
    (∀ (statement : Select M) model rules reflector distinct applied,
      statement.selected = [.model model] → statement.joins = [] →
      statement.applyRules S model rules reflector distinct = .ok applied →
      ∃ restricted, statement.restrict S model rules reflector = .ok restricted ∧
        applied = (if distinct then restricted.statement.deduplicated
          else restricted.statement) ∧
        ReadsAlong S model rules reflector statement applied restricted) ∧
    (∀ (statement : Select M) model rules reflector distinct path,
      statement.applyRules S model rules reflector distinct ≠ .error (.notJoined path)) ∧
    ∀ (q : Request M) (statement : Select M) path,
      (q.accessible S statement).result = .error (.notJoined path) →
      ∃ d ∈ statement.selected.filterMap Selected.described?, ∃ r ∈ q.registrationsFor d,
        r.build q.actor = .error (.notJoined path) := by
  refine ⟨fun statement model rules reflector distinct applied => readsAlong_applyRules,
    fun statement model rules reflector distinct path herror => ?_,
    fun q statement path herror => ?_⟩
  · rcases Success.bind_eq_error_iff.1 herror with hrestrict | ⟨restricted, -, h⟩
    · exact restrict_error hrestrict
    · cases h
  · rw [Request.accessible_result, Success.map_eq_error_iff] at herror
    obtain ⟨d, hd, middle, hstep⟩ := Request.exists_restrictTo_error herror
    rcases Request.restrictTo_error hstep with hinput | ⟨-, hmissing⟩ | hbuild
    · exact hinput.elim
    · cases hmissing
    · exact ⟨d, hd, hbuild⟩

open Sample in
/-- Two rules about the comments of a post, one of them about its author's organization as well:
three paths are joined, and the condition on tags that the statement had keeps its own table. A rule
function may complain in its own words about a path that is not joined. -/
theorem no_dangling_source_posts :
    let statement : Select Entity := { ofModel .post with
      conditions := [.isNotNull ⟨.own .tag, column "name" .text⟩] }
    let rules : List Rule :=
      [⟨.bool true, .plain [(.text "author", .plain [(.text "organization", .plain
          [(.text "name", .text "Acme Corp")])]), (.text "comments", .plain
          [(.text "flagged", .bool false)])], ""⟩,
        ⟨.bool false, .plain [(.text "comments", .plain [(.text "body", .text "spam")])], ""⟩]
    let stubborn : Request Entity := {
      config := {}
      registry := .ofRegistrations
        [⟨.post, .text "read", fun _ => .error (.notJoined ["tags"]), .bool true, "", ""⟩]
      reflector := .empty
      actor := .nobody
      action := none }
    (∃ applied restricted, statement.applyRules schema .post rules {} true = .ok applied ∧
      restricted.joins.paths = [["author"], ["author", "organization"], ["comments"]] ∧
      ReadsAlong schema .post rules {} statement applied restricted) ∧
    ∃ d ∈ statement.selected.filterMap Selected.described?, ∃ r ∈ stubborn.registrationsFor d,
      r.build stubborn.actor = .error (.notJoined ["tags"]) := by
  intro statement rules stubborn
  have hsource := no_dangling_source schema
  obtain ⟨restricted, hrestricted, -, hreads⟩ :=
    hsource.1 statement .post rules {} true _ rfl rfl rfl
  refine ⟨⟨_, restricted, rfl, ?_, hreads⟩, hsource.2.2 stubborn statement ["tags"] rfl⟩
  cases hrestricted
  rfl

end Select

end RowAccess
