import RowAccess.Proofs.AccessibleSteps
import RowAccess.Sample.Rows
import RowAccess.Sql.Statement
/-!
# Failing closed

An entity without registrations never leaves a request open. The statement that comes back, if one
does, is constantly false, whatever the rules of the other entities say and whatever conditions it
had before; or else the request fails with the complaint about the first such entity. Where
everything is registered, the filter of an entity is missing only if one of its rules has no
conditions.
-/

namespace RowAccess

namespace Rule

variable {M : Type} [DecidableEq M] {S : Schema M} {model : M} {rules : List Rule}
  {reflector : Reflector M}

/-- Rules that come to no filter hold one without conditions, and all before it compile. -/
theorem exists_bare_of_compileFrom {joins : Option (JoinSet M)} {position : Nat}
    {before : Option (Filter M)} {restriction : Restriction M}
    (h : compileFrom S model joins reflector position before rules = .ok restriction)
    (hnone : restriction.filter? = none) (hsome : before.isSome = true ∨ rules ≠ []) :
    ∃ earlier rule rest, rules = earlier ++ rule :: rest ∧
      rule.filter? S model joins reflector = .ok none ∧
      ∀ r ∈ earlier, ∃ filter, r.filter? S model joins reflector = .ok (some filter) := by
  induction rules generalizing position before with
  | nil =>
      obtain ⟨b, rfl⟩ := Option.isSome_iff_exists.1 (hsome.resolve_right fun h => h rfl)
      cases h
      cases hnone
  | cons rule rules ih =>
      obtain ⟨found, hfound, hrest⟩ := Success.bind_eq_ok_iff.1 h
      cases found with
      | none => exact ⟨[], rule, rules, rfl, hfound, by simp⟩
      | some filter =>
          obtain ⟨earlier, bare, rest, rfl, hbare, hearlier⟩ := ih hrest (.inl rfl)
          refine ⟨rule :: earlier, bare, rest, rfl, hbare, ?_⟩
          rw [List.forall_mem_cons]
          exact ⟨⟨filter, hfound⟩, hearlier⟩

end Rule

namespace Request

theorem conditions_of_never {M : Type} {S : Schema M} {fs : List (Filter M)} (h : .never ∈ fs)
    (style : Sql.Style) :
    Sql.conditions S style fs = .ok [.text " \nWHERE false"] := by
  have hany : fs.any Filter.isNever = true := List.any_eq_true.2 ⟨.never, h, rfl⟩
  cases fs with
  | nil => cases h
  | cons first rest => simp [Sql.conditions, hany]

theorem build_of_checkedRule {M : Type} {S : Schema M} {actor : Actor}
    {registration : Registration M} {action : Value}
    {rule : Rule} (h : Registry.checkedRule S actor registration action = .ok rule) :
    registration.rule actor = .ok rule ∧ registration.build actor = .ok rule.conditions := by
  unfold Registry.checkedRule at h
  obtain ⟨built, hbuilt, h⟩ := Success.bind_eq_ok_iff.1 h
  have hsame : built = rule := by
    split at h
    · exact Except.ok.inj h
    · cases h
  subst hsame
  refine ⟨hbuilt, ?_⟩
  obtain ⟨conditions, hconditions, rfl⟩ := Success.map_eq_ok_iff.1 hbuilt
  exact hconditions

variable {M : Type} [DecidableEq M]

/-- One of the rule functions registered for a model returns no conditions for the actor, and what
all functions registered before it return compiles. -/
def LiftedBy (q : Request M) (S : Schema M) (m : M) (joins : JoinSet M) : Prop :=
  ∃ before registration after packing,
    q.registrationsFor (.model m) = before ++ registration :: after ∧
    registration.build q.actor = .ok (.mapping packing []) ∧
    ∀ earlier ∈ before, ∃ rule filter, earlier.rule q.actor = .ok rule ∧
      rule.filter? S m (some joins) q.reflector = .ok (some filter)

/-- A filter says what rules say. The constant that no row satisfies is no part of it. And if the
database takes the values of the rules, it holds exactly for the assignments whose rows along the
joined paths satisfy the rules, folded from left to right. -/
structure Speaks (q : Request M) (S : Schema M) (model : M) (rules : List Rule)
    (joins : JoinSet M) (f : Filter M) : Prop where
  neverFree : f.NeverFree
  holds_iff : (∀ rule ∈ rules, rule.Accepted S q.reflector model) →
    (∀ rule ∈ rules, rule.allows = false → rule.Defined S q.reflector model) →
    ∀ a : Assignment M, f.holds a = true ↔
      Rule.foldTruth (Rule.Satisfied S q.reflector model (joins.rowsAlong a)) rules

/-- What an entity with registrations adds to the conditions of a statement: the filter that its
rules compile to, which says what they say, or no filter if one of them lifts the restriction. -/
inductive Adds (q : Request M) (S : Schema M) : Described M → Option (Filter M) → Prop
  | ruled {m : M} {rules : List Rule} {scope : Nat} {joins : JoinSet M}
      {restriction : Restriction M}
      (hrules : q.rulesFor S (.model m) = .ok rules)
      (hjoins : (JoinSet.empty m q.reflector scope).addAll S
        (rules.flatMap fun rule => rule.conditions.joinPaths) = (joins, none))
      (hcompile : Rule.compile S m rules (some joins) q.reflector = .ok restriction)
      (hspeaks : ∀ f, restriction.filter? = some f → q.Speaks S m rules joins f)
      (hlifted : restriction.filter? = none → q.LiftedBy S m joins) :
      Adds q S (.model m) restriction.filter?

variable {S : Schema M} {q : Request M}

/-- A step with registrations adds what its rules come to and nothing else. -/
theorem adds_of_restrictTo {statement after : Select M} {d : Described M}
    (hregistered : q.registrationsFor d ≠ [])
    (h : (q.restrictTo S statement d).result = .ok after) :
    ∃ added, q.Adds S d added ∧
      after.conditions = statement.conditions ++ added.toList := by
  obtain ⟨m, rules, restricted, rfl, hrules, hrestricted, rfl⟩ :=
    restrictTo_of_registered hregistered h
  obtain ⟨joins, restriction, hjoins, hcompile, rfl⟩ := Select.restrict_eq_ok_iff.1 hrestricted
  obtain ⟨hmodel, -, -⟩ := JoinSet.joinsFor_frame hjoins
  refine ⟨restriction.filter?,
    .ruled hrules hjoins hcompile (fun f hf => ?_) fun hnone => ?_, ?_⟩
  · have hfiltered := Restriction.mem_filter?_iff.1 (Option.mem_toList.2 hf)
    rw [hfiltered] at hcompile
    exact ⟨Rule.neverFree_compile hmodel hcompile, fun haccepted hdefined a =>
      Restriction.holds_compile hmodel hcompile haccepted hdefined⟩
  · have hne : rules ≠ [] := fun hnil => hregistered ((rules_eq_nil_iff hrules).1 hnil)
    obtain ⟨earlier, bare, rest, rfl, hbare, hearlier⟩ :=
      Rule.exists_bare_of_compileFrom hcompile hnone (.inr hne)
    obtain ⟨packing, hpacking⟩ := Rule.conditions_of_filter?_eq_none hbare
    have hall := (rulesFor_model_eq_ok_iff.1 hrules).2
    have htake := List.forall₂_take_append _ _ _ hall
    obtain ⟨registration, after, hregistration, -, hdrop⟩ :=
      List.forall₂_cons_right_iff.1 (List.forall₂_drop_append _ _ _ hall)
    refine ⟨_, registration, after, packing, (hdrop ▸ List.take_append_drop earlier.length _).symm,
      ?_, fun r hr => ?_⟩
    · rw [(build_of_checkedRule hregistration).2, hpacking]
    · obtain ⟨rule, hrule, hchecked⟩ :=
        Success.exists_of_mapM (Success.mapM_eq_ok_iff.2 htake) hr
      obtain ⟨filter, hfilter⟩ := hearlier rule hrule
      exact ⟨rule, filter, (build_of_checkedRule hchecked).1, hfilter⟩
  · rw [Select.under_eq]
    rfl

/-- What a run over registered entities adds: one filter for each entity at most. -/
theorem adds_of_restrictToAll {entities : List (Described M)} {statement after : Select M}
    (hregistered : ∀ d ∈ entities, q.registrationsFor d ≠ [])
    (h : (q.restrictToAll S entities statement).result = .ok after) :
    ∃ added, List.Forall₂ (q.Adds S) entities added ∧
      after.conditions = statement.conditions ++ added.flatMap Option.toList := by
  induction entities generalizing statement with
  | nil =>
      cases h
      exact ⟨[], .nil, by simp⟩
  | cons d entities ih =>
      rw [restrictToAll_cons] at h
      obtain ⟨middle, hmiddle, hrest⟩ := Success.bind_eq_ok_iff.1 h
      obtain ⟨first, hfirst, hconditions⟩ := adds_of_restrictTo (hregistered d (by simp)) hmiddle
      obtain ⟨added, hadded, hafter⟩ := ih (fun e he => hregistered e (by simp [he])) hrest
      refine ⟨first :: added, .cons hfirst hadded, ?_⟩
      rw [hafter, hconditions, List.flatMap_cons, List.append_assoc]

/-- A run over an entity without registrations that succeeds leaves a condition that no row
satisfies. -/
theorem never_mem_of_missing {entities : List (Described M)} {statement after : Select M}
    (hmissing : ∃ d ∈ entities, q.registrationsFor d = [])
    (h : (q.restrictToAll S entities statement).result = .ok after) :
    q.config.missingRules = .deny ∧ .never ∈ after.conditions := by
  obtain ⟨d, hd, hnone⟩ := hmissing
  obtain ⟨before, rest, rfl⟩ := List.append_of_mem hd
  rw [restrictToAll_append] at h
  obtain ⟨middle, -, h⟩ := Success.bind_eq_ok_iff.1 h
  rw [restrictToAll_cons] at h
  obtain ⟨closed, hclosed, hrest⟩ := Success.bind_eq_ok_iff.1 h
  obtain ⟨hdeny, rfl⟩ := restrictTo_of_missing hnone hclosed
  refine ⟨hdeny, (conditions_restrictToAll hrest).subset ?_⟩
  simp [Select.filteredBy]

/-- Over registered entities a run complains about missing rules only in the words of a rule
function. -/
theorem build_of_restrictToAll {entities : List (Described M)} {statement : Select M}
    {resource action : Value} (hregistered : ∀ d ∈ entities, q.registrationsFor d ≠ [])
    (h : (q.restrictToAll S entities statement).result = .error (.noRules resource action)) :
    ∃ d ∈ entities, ∃ r ∈ q.registrationsFor d,
      r.build q.actor = .error (.noRules resource action) := by
  obtain ⟨d, hd, middle, hstep⟩ := exists_restrictTo_error h
  rcases restrictTo_error hstep with hinput | ⟨hmissing, -⟩ | hbuild
  · exact hinput.elim
  · exact absurd hmissing (hregistered d hd)
  · exact ⟨d, hd, hbuild⟩

/-- What a request does when something it selects has no registrations, and when everything has.

If an entity has none, then under `deny` every statement that comes back has a condition that no
row satisfies and is written as constantly false; under `raise` nothing comes back, and the fault is
the complaint about the first such entity, or about an action that cannot be a key, unless the rules
of an entity before it fail. If every entity has registrations, that complaint can only be a rule
function's own, and the conditions added are one filter for each entity, which says what its rules
say and is left out only for an entity that one of its rule functions lifts. -/
theorem accessible_fails_closed (q : Request M) (S : Schema M) (statement : Select M) :
    let entities := statement.selected.filterMap Selected.described?
    let result := (q.accessible S statement).result
    ((∃ d ∈ entities, q.registrationsFor d = []) →
      (q.config.missingRules = .deny → ∀ restricted, result = .ok restricted →
        .never ∈ restricted.conditions ∧
        ∀ style, Sql.conditions S style restricted.conditions = .ok [.text " \nWHERE false"]) ∧
      (q.config.missingRules = .raise → (∀ restricted, result ≠ .ok restricted) ∧
        ∀ before d after, entities = before ++ d :: after →
          (∀ e ∈ before, q.registrationsFor e ≠ []) → q.registrationsFor d = [] →
          ((∃ middle, (q.restrictToAll S before statement).result = .ok middle) ∧
            (q.effectiveAction.unhashable? = none →
              result = .error (.noRules (.text (entityName S d)) q.effectiveAction)) ∧
            ∀ typeName, q.effectiveAction.unhashable? = some typeName →
              result = .error (.unhashable typeName)) ∨
          ∃ fault, (q.restrictToAll S before statement).result = .error fault ∧
            result = .error fault ∧ ∀ resource action, fault = .noRules resource action →
              ∃ e ∈ before, ∃ r ∈ q.registrationsFor e, r.build q.actor = .error fault)) ∧
    ((∀ d ∈ entities, q.registrationsFor d ≠ []) →
      (∀ resource action, result = .error (.noRules resource action) →
        ∃ d ∈ entities, ∃ r ∈ q.registrationsFor d,
          r.build q.actor = .error (.noRules resource action)) ∧
      ∀ restricted, result = .ok restricted → ∃ added,
        List.Forall₂ (q.Adds S) entities added ∧
        restricted.conditions = statement.conditions ++ added.flatMap Option.toList) := by
  intro entities result
  have hmap : result = (q.restrictToAll S entities statement).result.map _ :=
    accessible_result statement
  have hresult : ∀ restricted, result = .ok restricted → ∃ after,
      (q.restrictToAll S entities statement).result = .ok after ∧
        restricted.conditions = after.conditions := by
    intro restricted h
    rw [hmap] at h
    obtain ⟨after, hafter, rfl⟩ := Success.map_eq_ok_iff.1 h
    refine ⟨after, hafter, ?_⟩
    split <;> rfl
  have herror : ∀ fault, result = .error fault ↔
      (q.restrictToAll S entities statement).result = .error fault := by
    intro fault
    rw [hmap]
    cases (q.restrictToAll S entities statement).result <;> simp [Except.map]
  refine ⟨fun hmissing =>
    ⟨fun hdeny restricted h => ?_, fun hraise => ⟨fun restricted h => ?_, ?_⟩⟩,
    fun hregistered => ⟨fun resource action h => ?_, fun restricted h => ?_⟩⟩
  · obtain ⟨after, hafter, hconditions⟩ := hresult restricted h
    rw [hconditions]
    have hnever := (never_mem_of_missing hmissing hafter).2
    exact ⟨hnever, conditions_of_never hnever⟩
  · obtain ⟨after, hafter, -⟩ := hresult restricted h
    rw [(never_mem_of_missing hmissing hafter).1] at hraise
    cases hraise
  · intro before d after hentities hbefore hnone
    have hsplit := restrictToAll_append (S := S) (q := q) before (d :: after) statement
    rw [← hentities] at hsplit
    cases hearlier : (q.restrictToAll S before statement).result with
    | error fault =>
        rw [hearlier] at hsplit
        refine .inr ⟨fault, rfl, (herror fault).2 hsplit, ?_⟩
        rintro resource action rfl
        exact build_of_restrictToAll hbefore hearlier
    | ok middle =>
        rw [hearlier] at hsplit
        obtain ⟨hcomplaint, hkey⟩ :=
          restrictTo_raise S middle hnone hraise
        have hfails : ∀ fault, (q.restrictTo S middle d).result = .error fault →
            result = .error fault := by
          intro fault hstep
          refine (herror fault).2 (hsplit.trans ?_)
          rw [Success.bind_ok rfl, restrictToAll_cons, hstep]
          rfl
        exact .inl ⟨⟨middle, rfl⟩, fun haction => hfails _ (hcomplaint haction),
          fun typeName haction => hfails _ (hkey typeName haction)⟩
  · exact build_of_restrictToAll hregistered ((herror _).1 h)
  · obtain ⟨after, hafter, hconditions⟩ := hresult restricted h
    rw [hconditions]
    exact adds_of_restrictToAll hregistered hafter

/-! ## Requests about posts -/

open Sample in
/-- A request to read under the given registrations. -/
def reading (config : Config) (registrations : List (Registration Entity)) : Request Entity where
  config := config
  registry := .ofRegistrations registrations
  reflector := .empty
  actor := .nobody
  action := none

open Sample in
/-- A rule about reading posts that its function returns, or fails to return. -/
def aboutPosts (returned : Except Fault Value) : Registration Entity :=
  ⟨.post, .text "read", fun _ => returned, .bool true, "about posts", ""⟩

open Sample in
/-- Posts may be read unconditionally, but nothing is said about tags: the statement is closed. -/
theorem accessible_fails_closed_tags :
    let q := reading {} [aboutPosts (.ok (.plain []))]
    ∃ restricted,
      (q.accessible schema { selected := [.model .post, .model .tag] }).result = .ok restricted ∧
        .never ∈ restricted.conditions := by
  intro q
  have hclosed := accessible_fails_closed q schema { selected := [.model .post, .model .tag] }
  have htag : Described.model Entity.tag ∈
      ({ selected := [.model .post, .model .tag] } : Select Entity).selected.filterMap
        Selected.described? := List.mem_filterMap.2 ⟨.model .tag, by simp, rfl⟩
  exact ⟨_, rfl, ((hclosed.1 ⟨_, htag, rfl⟩).1 rfl _ rfl).1⟩

open Sample in
/-- Registrations alone keep neither a constantly false condition nor the complaint about missing
rules away. A rule that wants the key of a post to be one of no values adds a condition that is
false of whatever rows there are, and a rule function may raise the complaint itself. -/
theorem registered_yet_closed :
    (∃ restricted added, let q := reading {} [aboutPosts (.ok (.plain [(.text "id", .list [])]))]
      (∀ d ∈ (Select.ofModel Entity.post).selected.filterMap Selected.described?,
        q.registrationsFor d ≠ []) ∧
      (q.accessible schema (Select.ofModel .post)).result = .ok restricted ∧
      restricted.conditions = [added] ∧ ∀ a, added.truth a = some false) ∧
    let q := reading {} [aboutPosts (.error (.noRules (.text "Post") (.text "read")))]
    (∀ d ∈ (Select.ofModel Entity.post).selected.filterMap Selected.described?,
      q.registrationsFor d ≠ []) ∧
    (q.accessible schema (Select.ofModel .post)).result =
      .error (.noRules (.text "Post") (.text "read")) := by
  have hdescribed : (Select.ofModel Entity.post).selected.filterMap Selected.described? =
      [.model .post] := rfl
  rw [hdescribed]
  exact ⟨⟨_, _, List.forall_mem_singleton.2 (List.cons_ne_nil _ _), rfl, rfl, fun a => rfl⟩,
    List.forall_mem_singleton.2 (List.cons_ne_nil _ _), rfl⟩

end Request

end RowAccess
