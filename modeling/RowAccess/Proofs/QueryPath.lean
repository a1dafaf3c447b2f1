import RowAccess.Proofs.JoinedConditions
import RowAccess.Sample.Rows
/-!
# Rules on their way into a statement

Before rules are compiled for a statement, the joins are planned that their nested conditions need.
Planning reads nothing but the keys of nested trees, and it resolves them just as compilation does.
So rules that compile by themselves can be applied, and rules that can be applied compile. What a
refusal says can differ: a key that is no text is found by whoever comes to it first.
-/

namespace RowAccess

variable {M : Type} {S : Schema M} {model : M}

/-! ## Planned keys -/

/-- Planned keys that cannot be followed stop at a nested tree without a relationship. -/
theorem Rule.exists_placeAt_of_extend {rule : Rule} {keys : List Value} {fault : Fault}
    {joins stopped : JoinSet M} (hkeys : keys ∈ rule.conditions.joinPaths)
    (h : JoinSet.extend S [] model keys joins = (stopped, some fault)) :
    ∃ position place, rule.PlaceAt S model position place ∧ place.value.isMapping = true ∧
      S.relationship place.model place.key = .error fault := by
  obtain ⟨found, key, rest, names, reached, rfl, hnames, hreached, herror, -⟩ :=
    JoinSet.extend_stops h
  cases htree : rule.conditions with
  | mapping packing entries =>
      rw [htree, Value.joinPaths] at hkeys
      obtain ⟨position, value, hplace, hvalue⟩ :=
        exists_placeAt_of_planned [] hkeys hnames hreached
      exact ⟨position, _, ⟨packing, entries, htree, hplace⟩, hvalue, herror⟩
  | _ => simp [htree, Value.joinPaths] at hkeys

/-- A rule can be joined if all its nested trees have a relationship to go along. -/
theorem Rule.joinable_of_places {rule : Rule}
    (h : ∀ position place, rule.PlaceAt S model position place → place.value.isMapping = true →
      ∃ r, S.relationship place.model place.key = .ok r) : rule.Joinable S model := by
  intro keys hkeys
  cases hextend : JoinSet.extend S [] model keys (.empty model .empty 0) with
  | mk joins fault =>
      cases fault with
      | none => exact JoinSet.extend_snd_eq_none_iff.1 (congrArg Prod.snd hextend)
      | some fault =>
          obtain ⟨position, place, hplace, hvalue, herror⟩ :=
            exists_placeAt_of_extend hkeys hextend
          obtain ⟨r, hr⟩ := h position place hplace hvalue
          rw [hr] at herror
          cases herror

variable [DecidableEq M] {reflector : Reflector M} {rules : List Rule}

/-- A nested tree without fault has a relationship to go along. -/
theorem Place.exists_relationship {p : Place M} (hvalue : p.value.isMapping = true)
    (h : ∀ fault, ¬ p.Flawed S reflector none fault) :
    ∃ r, S.relationship p.model p.key = .ok r := by
  cases hkey : p.key.text? with
  | none => exact absurd (.keyNotText hkey) (h _)
  | some name =>
      cases hfound : (S.model p.model).relationship? name with
      | none => exact absurd (.relationship hkey hvalue hfound) (h _)
      | some r => exact ⟨r, Schema.relationship_eq_ok_iff.2 ⟨name, hkey, hfound⟩⟩

theorem Rule.Passes.joinable {rule : Rule} (h : rule.Passes S reflector none model) :
    rule.Joinable S model :=
  joinable_of_places fun position _ hplace hvalue =>
    Place.exists_relationship hvalue fun fault hflawed =>
      h.2 position fault (hplace.faultAt hflawed)

/-! ## Applying and compiling -/

/-- What rules need joined is all that they are compiled with. -/
theorem JoinSet.compilesAlike_joinsFor {statement : Select M} {joins : JoinSet M}
    (hjoins : statement.joinsFor S model rules reflector = (joins, none)) :
    joins.CompilesAlike S reflector model rules := by
  obtain rfl := (joinsFor_frame hjoins).1
  refine ((sound_joinsFor hjoins).compilesAlike_or reflector rules).resolve_right ?_
  rintro ⟨path, hpath⟩
  obtain ⟨hmissing, before, rule, after, position, rfl, -, hasks, -⟩ :=
    Rule.firstFault_notJoined_iff.1 (Rule.compileFrom_eq_error_iff.1 hpath)
  have hnested := Value.exists_joinPaths_iff.1 hasks.planned
  exact hmissing ((mem_paths_joinsFor hjoins).2 ⟨rule, by simp, hnested⟩)

/-- Rules that compile, all of them with conditions, pass one by one. -/
theorem Rule.passes_of_compile {position : Nat} {before : Option (Filter M)}
    {joins : Option (JoinSet M)} {restriction : Restriction M}
    (hconditional : ∀ rule ∈ rules, ¬ rule.Bare)
    (h : compileFrom S model joins reflector position before rules = .ok restriction) :
    ∀ rule ∈ rules, rule.Passes S reflector joins model := by
  induction rules generalizing position before with
  | nil => simp
  | cons rule rules ih =>
      rw [List.forall_mem_cons] at hconditional ⊢
      obtain ⟨found, hfound, hrest⟩ := Success.bind_eq_ok_iff.1 h
      cases found with
      | none =>
          have hbare := (filter?_eq_none_iff S model joins reflector rule).1 hfound
          exact absurd hbare hconditional.1
      | some filter => exact ⟨passes_iff.2 ⟨filter, hfound⟩, ih hconditional.2 hrest⟩

namespace Select

/-- Rules that all have conditions can be applied to a statement on their model exactly if they
compile without joins; they then filter it, unless there are none. -/
theorem applyRules_ok_iff_compile (S : Schema M) (model : M) (reflector : Reflector M)
    (distinct : Bool) (hconditional : ∀ rule ∈ rules, ¬ rule.Bare) :
    ((∃ applied, applyRules S (ofModel model) model rules reflector distinct = .ok applied) ↔
      ∃ restriction, Rule.compile S model rules none reflector = .ok restriction) ∧
    ∀ applied, applyRules S (ofModel model) model rules reflector distinct = .ok applied →
      (applied.conditions ≠ [] ↔ rules ≠ []) := by
  refine ⟨⟨?_, ?_⟩, ?_⟩
  · rintro ⟨applied, happlied⟩
    obtain ⟨joins, restriction, hjoins, hcompile, -⟩ := applyRules_eq_ok_iff.1 happlied
    refine ⟨restriction.mapSources Source.unaliased, ?_⟩
    rw [← (JoinSet.compilesAlike_joinsFor hjoins).unaliased, hcompile]
    rfl
  · rintro ⟨restriction, hcompile⟩
    have hpasses := Rule.passes_of_compile hconditional hcompile
    obtain ⟨joins, hjoins⟩ :
        ∃ joins, joinsFor S (ofModel model) model rules reflector = (joins, none) :=
      JoinSet.joinsFor_eq_none_iff.2 fun rule hrule => (hpasses rule hrule).joinable
    have halike := (JoinSet.compilesAlike_joinsFor hjoins).unaliased
    rw [hcompile, Success.map_eq_ok_iff] at halike
    obtain ⟨joined, hjoined, -⟩ := halike
    exact ⟨_, applyRules_eq_ok_iff.2 ⟨joins, joined, hjoins, hjoined, rfl⟩⟩
  · intro applied happlied
    obtain ⟨joins, restriction, -, hcompile, rfl⟩ := applyRules_eq_ok_iff.1 happlied
    have hfilter := Rule.filter?_eq_none_of_compileFrom hcompile
    have hbare : ¬ ∃ rule ∈ rules, rule.Bare := fun ⟨rule, hrule, hbare⟩ =>
      hconditional rule hrule hbare
    rw [or_iff_left hbare, and_iff_left rfl] at hfilter
    simp [ofModel, hfilter]

open Sample in
/-- Posts that are published, and of which no author works for the first organization. -/
theorem applyRules_ok_iff_compile_posts :
    let published : Rule := ⟨.bool true, .plain [(.text "is_published", .bool true)], ""⟩
    let employed : Rule := ⟨.bool false, .plain [(.text "author",
      .plain [(.text "organization", .plain [(.text "id", .int 1)])])], ""⟩
    (∀ rule ∈ [published, employed], ¬ rule.Bare) ∧
      (∃ restriction, Rule.compile schema .post [published, employed] none .empty =
        .ok restriction) ∧
      ∃ applied, applyRules schema (ofModel .post) .post [published, employed] .empty true =
        .ok applied ∧ (applied.conditions ≠ [] ↔ [published, employed] ≠ []) := by
  intro published employed
  have hconditional : ∀ rule ∈ [published, employed], ¬ rule.Bare := by
    simp [published, employed, Rule.Bare, Value.plain]
  obtain ⟨hiff, hconditions⟩ :=
    applyRules_ok_iff_compile schema Entity.post .empty true hconditional
  have hcompile : ∃ restriction, Rule.compile schema .post [published, employed] none .empty =
      .ok restriction := ⟨_, rfl⟩
  obtain ⟨applied, happlied⟩ := hiff.2 hcompile
  exact ⟨hconditional, hcompile, applied, happlied, hconditions applied happlied⟩

end Select

/-! ## Keys that are no text -/

/-- The fault that a key that is no text is refused for on the way into a statement. Where it holds
a nested tree, the joins are planned first, and there it is a relationship that does not exist. -/
def Place.refusal (S : Schema M) (p : Place M) : Fault :=
  if p.value.isMapping then .noRelationship (S.model p.model).name p.key
  else .malformedTree p.key p.value .keyNotText

/-- A rule in which nothing is wrong but one key that is no text. All keys can be looked up. -/
structure Rule.OddKey (S : Schema M) (reflector : Reflector M) (model : M) (rule : Rule)
    (position : List Nat) (p : Place M) : Prop where
  stands : rule.PlaceAt S model position p
  noText : p.key.text? = none
  only : ∀ other fault, rule.FaultAt S reflector none model other fault → other = position
  hashable : ∀ keys ∈ rule.conditions.joinPaths, Value.unhashableIn? keys = none

namespace Rule.OddKey

variable {rule : Rule} {position : List Nat} {p : Place M}

theorem compile_eq (h : rule.OddKey S reflector model position p) :
    compile S model [rule] none reflector = .error (.malformedTree p.key p.value .keyNotText) := by
  refine compileFrom_eq_error_iff.2 (firstFault_cons.2 (.inl ⟨position, ?_, ?_⟩))
  · exact h.stands.faultAt (.keyNotText h.noText)
  · intro earlier hearlier other hother
    rw [h.only earlier other hother] at hearlier
    exact absurd hearlier (List.lt_irrefl position)

/-- All other nested trees have a relationship to go along. -/
theorem exists_relationship (h : rule.OddKey S reflector model position p) {there : List Nat}
    {other : Place M} (hother : rule.PlaceAt S model there other)
    (hvalue : other.value.isMapping = true) :
    other = p ∨ ∃ r, S.relationship other.model other.key = .ok r := by
  by_cases hposition : there = position
  · subst hposition
    exact .inl (hother.unique h.stands)
  · have hsound : ∀ fault, ¬ other.Flawed S reflector none fault := fun fault hflawed =>
      hposition (h.only there fault (hother.faultAt hflawed))
    exact .inr (Place.exists_relationship hvalue hsound)

theorem exists_planned (h : rule.OddKey S reflector model position p)
    (hvalue : p.value.isMapping = true) :
    ∃ keys ∈ rule.conditions.joinPaths, p.key ∈ keys := by
  obtain ⟨packing, entries, hrule, hplace⟩ := h.stands
  obtain ⟨keys, names, hkeys, -, -⟩ := hplace.planned hvalue
  rw [hrule]
  exact ⟨keys ++ [p.key], hkeys, by simp⟩

/-- The joins of the rule cannot be planned if its odd key holds a nested tree. -/
theorem joinsFor_error (h : rule.OddKey S reflector model position p)
    (hvalue : p.value.isMapping = true) (statement : Select M) :
    ∃ joins, statement.joinsFor S model [rule] reflector =
      (joins, some (.noRelationship (S.model p.model).name p.key)) := by
  obtain ⟨planned, hplanned, hkey⟩ := h.exists_planned hvalue
  cases hjoins : statement.joinsFor S model [rule] reflector with
  | mk joins fault =>
      cases fault with
      | none =>
          obtain ⟨path, hpath, -⟩ :=
            JoinSet.joinsFor_eq_none_iff.1 ⟨joins, hjoins⟩ rule (by simp) planned hplanned
          obtain ⟨name, hname⟩ := JoinSet.exists_text_of_pathOf? hpath hkey
          rw [h.noText] at hname
          cases hname
      | some fault =>
          obtain ⟨keys, hkeys, before, hmodel, hadd⟩ :=
            JoinSet.exists_add_of_addAll (congrArg Prod.snd hjoins)
          rw [List.flatMap_singleton] at hkeys
          rw [JoinSet.add, h.hashable keys hkeys, hmodel] at hadd
          obtain ⟨there, other, hother, hmapping, herror⟩ :=
            Rule.exists_placeAt_of_extend hkeys (Prod.ext rfl hadd)
          rcases h.exists_relationship hother hmapping with rfl | ⟨r, hr⟩
          · have hhashable := Value.unhashable?_of_mem (h.hashable planned hplanned) hkey
            exact ⟨joins, by rw [Schema.relationship_eq_error hhashable herror]⟩
          · rw [hr] at herror
            cases herror

theorem restrict_eq (h : rule.OddKey S reflector model position p) (statement : Select M) :
    statement.restrict S model [rule] reflector = .error (p.refusal S) := by
  unfold Place.refusal
  cases hvalue : p.value.isMapping with
  | true =>
      obtain ⟨joins, hjoins⟩ := h.joinsFor_error hvalue statement
      rw [Select.restrict, hjoins]
      rfl
  | false =>
      have hjoinable : rule.Joinable S model := by
        refine joinable_of_places fun there other hother hmapping => ?_
        rcases h.exists_relationship hother hmapping with rfl | hr
        · rw [hvalue] at hmapping
          cases hmapping
        · exact hr
      obtain ⟨joins, hjoins⟩ :
          ∃ joins, statement.joinsFor S model [rule] reflector = (joins, none) :=
        JoinSet.joinsFor_eq_none_iff.2 (by simpa using hjoinable)
      have halike := (JoinSet.compilesAlike_joinsFor hjoins).unaliased
      rw [h.compile_eq, Success.map_eq_error_iff] at halike
      rw [Select.restrict, hjoins]
      exact Success.bind_eq_error_iff.2 (.inl halike)

/-- A key that is no text is refused as such by the compiler, but on the way into a statement only
if it holds no nested tree. -/
theorem odd_key_refused (h : rule.OddKey S reflector model position p) :
    compile S model [rule] none reflector =
      .error (.malformedTree p.key p.value .keyNotText) ∧
    (∀ distinct, Select.applyRules S (.ofModel model) model [rule] reflector distinct =
      .error (p.refusal S)) ∧
    ∀ q : Request M, q.reflector = reflector →
      q.registry.evaluate S model q.effectiveAction q.actor = .ok [rule] →
      (q.accessible S (.ofModel model)).result = .error (p.refusal S) := by
  refine ⟨h.compile_eq, fun distinct => ?_, fun q hreflector hrules => ?_⟩
  · exact Success.bind_eq_error_iff.2 (.inl (h.restrict_eq _))
  · have hstep : (q.restrictTo S (.ofModel model) (.model model)).result =
        .error (p.refusal S) := by
      rw [Request.restrictTo_result, Request.rulesFor, Success.bind_ok hrules, hreflector]
      exact Success.map_eq_error_iff.2 (h.restrict_eq _)
    rw [Request.accessible_result, Success.map_eq_error_iff]
    change (q.restrictToAll S [.model model] (.ofModel model)).result = _
    rw [Request.restrictToAll_cons, hstep]
    rfl

/-- A single key that is no text is all that can be wrong with a tree. -/
theorem of_single {packing : Packing} {key value : Value}
    (hrule : rule.conditions = .mapping packing [(key, value)]) (hkey : key.text? = none)
    (hhashable : ∀ keys ∈ rule.conditions.joinPaths, Value.unhashableIn? keys = none) :
    rule.OddKey S reflector model [0] ⟨model, [], key, value⟩ where
  stands := ⟨packing, _, hrule, .here rfl⟩
  noText := hkey
  hashable := hhashable
  only other fault hfault := by
    rw [faultAt_tree hrule] at hfault
    obtain ⟨inner, rfl⟩ := exists_of_faultAt_single hfault
    rw [faultAt_root_iff fun _ _ r _ => Schema.relationship_ne_ok hkey r] at hfault
    rw [hfault.1]

open Sample in
/-- Below the author of a post, a number as a key of a nested tree. -/
theorem odd_key_refused_author :
    let tree : Value := .plain [(.text "id", .int 1)]
    let rule : Rule := ⟨.bool true, .plain [(.text "author", .plain [(.int 1, tree)])], ""⟩
    let q : Request Entity := {
      config := {}
      registry := .ofRegistrations
        [⟨.post, .text "read", fun _ => .ok rule.conditions, .bool true, "", ""⟩]
      reflector := .empty
      actor := .nobody
      action := none }
    rule.OddKey schema .empty .post [0, 0] ⟨.user, ["author"], .int 1, tree⟩ ∧
      q.reflector = .empty ∧
      q.registry.evaluate schema .post q.effectiveAction q.actor = .ok [rule] ∧
      compile schema .post [rule] none .empty =
        .error (.malformedTree (.int 1) tree .keyNotText) ∧
      Select.applyRules schema (.ofModel .post) .post [rule] .empty true =
        .error (.noRelationship "User" (.int 1)) ∧
      (q.accessible schema (.ofModel .post)).result = .error (.noRelationship "User" (.int 1)) := by
  intro tree rule q
  have hodd : rule.OddKey schema .empty .post [0, 0] ⟨.user, ["author"], .int 1, tree⟩ := by
    refine ⟨⟨_, _, rfl, .inside rfl rfl (.here rfl)⟩, rfl, fun other fault hfault => ?_, by decide⟩
    obtain ⟨inner, rfl⟩ := exists_of_faultAt_single hfault
    rcases (faultAt_nested_iff rfl).1 hfault with ⟨-, hflawed⟩ | hinner
    · have hempty := ((flawed_joined_iff rfl rfl (by simp)).1 hflawed).1
      cases hempty
    · obtain ⟨rest, rfl⟩ := exists_of_faultAt_single hinner
      rw [faultAt_root_iff fun _ _ r _ => Schema.relationship_ne_ok rfl r] at hinner
      rw [hinner.1]
  have hevaluate : q.registry.evaluate schema .post q.effectiveAction q.actor = .ok [rule] := rfl
  obtain ⟨hcompile, happly, haccessible⟩ := odd_key_refused hodd
  exact ⟨hodd, rfl, hevaluate, hcompile, happly true, haccessible q rfl hevaluate⟩

open Sample in
/-- A number that holds a nested tree among the conditions on posts is all that is wrong, but it is
taken for the name of a relationship. -/
theorem odd_key_taken_for_relationship :
    let tree : Value := .plain [(.text "id", .int 1)]
    let rule : Rule := ⟨.bool true, .plain [(.int 1, tree)], ""⟩
    rule.OddKey schema .empty .post [0] ⟨.post, [], .int 1, tree⟩ ∧
      compile schema .post [rule] none .empty =
        .error (.malformedTree (.int 1) tree .keyNotText) ∧
      Select.applyRules schema (.ofModel .post) .post [rule] .empty true =
        .error (.noRelationship "Post" (.int 1)) ∧
      ¬ ∃ value malformation, Select.applyRules schema (.ofModel .post) .post [rule] .empty true =
        .error (.malformedTree (.int 1) value malformation) := by
  intro tree rule
  have happly : Select.applyRules schema (.ofModel .post) .post [rule] .empty true =
      .error (.noRelationship "Post" (.int 1)) := rfl
  refine ⟨.of_single rfl rfl (by decide), rfl, happly, ?_⟩
  rintro ⟨value, malformation, hmalformed⟩
  rw [happly] at hmalformed
  cases hmalformed

end Rule.OddKey

end RowAccess
