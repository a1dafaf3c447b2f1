import RowAccess.Proofs.AccessibleSteps
import RowAccess.Sample.Schema
/-!
# Applying rules entity by entity

A request does no more than to apply the rules of each entity in turn. Applying rules drops repeated
rows every time, a request only once at the end; no step looks at whether rows may repeat, so both
come to the same statement or to the same fault. What comes after the first fault is not even
looked up.
-/

namespace RowAccess

/-- Restricting a statement does not look at whether its rows may repeat. -/
theorem Select.restrict_deduplicated {M : Type} [DecidableEq M] (S : Schema M)
    (statement : Select M) (model : M) (rules : List Rule) (reflector : Reflector M) :
    (statement.deduplicated.restrict S model rules reflector).map (·.statement) =
      (statement.restrict S model rules reflector).map (·.statement.deduplicated) := by
  have hjoins : statement.deduplicated.joinsFor S model rules reflector =
      statement.joinsFor S model rules reflector := rfl
  unfold restrict
  rw [hjoins]
  cases statement.joinsFor S model rules reflector with
  | mk joins failed =>
      cases failed with
      | some fault => rfl
      | none =>
          dsimp only
          cases Rule.compile S model rules (some joins) reflector with
          | error fault => rfl
          | ok restriction => cases restriction <;> rfl

namespace Request

section Turns

variable {M : Type}

/-- The statement as it leaves a request: without repeated rows, if so configured. -/
def finish (q : Request M) (statement : Select M) : Select M :=
  if q.config.distinct.truthy then statement.deduplicated else statement

/-- What becomes of a statement for an entity without registrations: nothing is accessible, or the
request ends. -/
def withoutRules (q : Request M) (S : Schema M) (statement : Select M) (d : Described M) :
    Except Fault (Select M) :=
  match q.config.missingRules with
  | .raise => .error (.noRules (.text (entityName S d)) q.effectiveAction)
  | .deny => .ok (statement.filteredBy .never)

/-- One entity's turn: if anything is registered for it, its rules are evaluated and applied to the
statement. Nothing can be registered for a renamed copy. -/
def applyFor [DecidableEq M] (q : Request M) (S : Schema M) (statement : Select M) :
    Described M → Except Fault (Select M)
  | .model m => do
    let registrations ← q.registry.lookup m q.effectiveAction
    if registrations.isEmpty then q.withoutRules S statement (.model m)
    else
      let rules ← q.registry.evaluate S m q.effectiveAction q.actor
      statement.applyRules S m rules q.reflector q.config.distinct.truthy
  | .renamed m => do
    Registry.checkAction q.effectiveAction
    q.withoutRules S statement (.renamed m)

/-- The request asked of another registry. -/
def askedOf (q : Request M) (registry : Registry M) : Request M := { q with registry := registry }

@[simp] theorem finish_finish (q : Request M) (statement : Select M) :
    q.finish (q.finish statement) = q.finish statement := by
  unfold finish
  split <;> rfl

theorem withoutRules_finish (q : Request M) (S : Schema M) (statement : Select M)
    (d : Described M) :
    q.withoutRules S (q.finish statement) d = (q.withoutRules S statement d).map q.finish := by
  unfold withoutRules finish
  cases q.config.missingRules <;> cases q.config.distinct.truthy <;> rfl

end Turns

variable {M : Type} [DecidableEq M] {S : Schema M} {q : Request M}

theorem restrict_finish (statement : Select M) (model : M) (rules : List Rule) :
    ((q.finish statement).restrict S model rules q.reflector).map (·.statement) =
      (statement.restrict S model rules q.reflector).map fun r => q.finish r.statement := by
  unfold finish
  cases q.config.distinct.truthy with
  | true => exact statement.restrict_deduplicated S model rules q.reflector
  | false => rfl

theorem applyRules_eq (statement : Select M) (model : M) (rules : List Rule) :
    statement.applyRules S model rules q.reflector q.config.distinct.truthy =
      (statement.restrict S model rules q.reflector).map fun r => q.finish r.statement := by
  unfold Select.applyRules finish
  cases statement.restrict S model rules q.reflector <;> rfl

/-! ## A single turn -/

/-- The rules for an entity cannot be built, or there are none, or they are those of a model. -/
theorem rulesFor_cases (S : Schema M) (q : Request M) (d : Described M) :
    (∃ fault, q.rulesFor S d = .error fault) ∨ q.rulesFor S d = .ok [] ∨
      ∃ m rule rules, d = .model m ∧ q.rulesFor S d = .ok (rule :: rules) := by
  cases hrules : q.rulesFor S d with
  | error fault => exact .inl ⟨fault, rfl⟩
  | ok rules =>
      cases rules with
      | nil => exact .inr (.inl rfl)
      | cons rule rules =>
          cases d with
          | model m => exact .inr (.inr ⟨m, rule, rules, rfl, rfl⟩)
          | renamed m =>
              have hnil := (rules_eq_nil_iff hrules).2 rfl
              cases hnil

theorem restrictTo_of_error (statement : Select M) {d : Described M} {fault : Fault}
    (hrules : q.rulesFor S d = .error fault) :
    (q.restrictTo S statement d).result = .error fault := by
  rw [restrictTo_eq_of_error statement hrules]

theorem restrictTo_of_nil (statement : Select M) {d : Described M}
    (hrules : q.rulesFor S d = .ok []) :
    (q.restrictTo S statement d).result = q.withoutRules S statement d := by
  rw [restrictTo_result, Success.bind_ok hrules]
  rfl

theorem restrictTo_of_cons (statement : Select M) {m : M} {rule : Rule} {rules : List Rule}
    (hrules : q.rulesFor S (.model m) = .ok (rule :: rules)) :
    (q.restrictTo S statement (.model m)).result =
      (statement.restrict S m (rule :: rules) q.reflector).map (·.statement) := by
  rw [restrictTo_result, Success.bind_ok hrules]

/-- A step commutes with dropping repeated rows. -/
theorem restrictTo_finish (statement : Select M) (d : Described M) :
    (q.restrictTo S (q.finish statement) d).result =
      (q.restrictTo S statement d).result.map q.finish := by
  rcases rulesFor_cases S q d with ⟨fault, hrules⟩ | hrules | ⟨m, rule, rules, rfl, hrules⟩
  · rw [restrictTo_of_error _ hrules, restrictTo_of_error _ hrules]
    rfl
  · rw [restrictTo_of_nil _ hrules, restrictTo_of_nil _ hrules]
    exact q.withoutRules_finish S statement d
  · rw [restrictTo_of_cons _ hrules, restrictTo_of_cons _ hrules, Success.map_map]
    exact restrict_finish statement m (rule :: rules)

theorem applyFor_of_unhashable (statement : Select M) (d : Described M) {typeName : String}
    (haction : q.effectiveAction.unhashable? = some typeName) :
    q.applyFor S statement d = .error (.unhashable typeName) := by
  have hcheck : Registry.checkAction q.effectiveAction = .error (.unhashable typeName) := by
    rw [Registry.checkAction, haction]
  cases d <;> simp only [applyFor, Registry.lookup, hcheck] <;> rfl

/-- With an action that can be looked up, a turn depends on whether anything is registered. -/
theorem applyFor_eq (statement : Select M) (d : Described M)
    (haction : q.effectiveAction.unhashable? = none) :
    q.applyFor S statement d =
      if q.registrationsFor d = [] then q.withoutRules S statement d
      else q.rulesFor S d >>= fun rules =>
        match d with
        | .model m => (statement.restrict S m rules q.reflector).map fun r => q.finish r.statement
        | .renamed _ => q.withoutRules S statement d := by
  have hcheck : Registry.checkAction q.effectiveAction = .ok () := by
    rw [Registry.checkAction, haction]
  cases d with
  | renamed m =>
      have hnone : q.registrationsFor (.renamed m) = [] := rfl
      rw [if_pos hnone, applyFor, Success.bind_ok hcheck]
  | model m =>
      have hlookup : q.registry.lookup m q.effectiveAction =
          .ok (q.registrationsFor (.model m)) := by
        rw [Registry.lookup, Success.bind_ok hcheck]
        rfl
      rw [applyFor, Success.bind_ok hlookup]
      simp only [List.isEmpty_iff, applyRules_eq]
      rfl

/-- An entity's turn is a step, after which repeated rows are dropped if rules were applied. -/
theorem applyFor_finish (statement : Select M) (d : Described M) :
    (q.applyFor S statement d).map q.finish =
      (q.restrictTo S statement d).result.map q.finish := by
  cases haction : q.effectiveAction.unhashable? with
  | some typeName =>
      rw [applyFor_of_unhashable statement d haction,
        restrictTo_of_error statement (rulesFor_of_unhashable haction)]
  | none =>
      rw [applyFor_eq statement d haction]
      by_cases hmissing : q.registrationsFor d = []
      · rw [if_pos hmissing, restrictTo_of_nil statement (rulesFor_of_missing hmissing haction)]
      · rw [if_neg hmissing]
        rcases rulesFor_cases S q d with ⟨fault, hrules⟩ | hrules | ⟨m, rule, rules, rfl, hrules⟩
        · rw [restrictTo_of_error statement hrules, hrules]
          rfl
        · exact absurd ((rules_eq_nil_iff hrules).1 rfl) hmissing
        · rw [restrictTo_of_cons statement hrules, Success.bind_ok hrules]
          simp only [Success.map_map, finish_finish]

/-! ## All turns -/

theorem restrictToAll_finish (entities : List (Described M)) (statement : Select M) :
    (q.restrictToAll S entities (q.finish statement)).result =
      (q.restrictToAll S entities statement).result.map q.finish := by
  induction entities generalizing statement with
  | nil => rfl
  | cons d rest ih =>
      rw [restrictToAll_cons, restrictToAll_cons, restrictTo_finish]
      cases (q.restrictTo S statement d).result with
      | error fault => rfl
      | ok after => exact ih after

/-- All turns come to what a run comes to, once repeated rows are dropped. -/
theorem foldlM_applyFor (entities : List (Described M)) (statement : Select M) :
    (entities.foldlM (q.applyFor S) statement).map q.finish =
      (q.restrictToAll S entities statement).result.map q.finish := by
  induction entities generalizing statement with
  | nil => rfl
  | cons d rest ih =>
      rw [List.foldlM_cons, restrictToAll_cons]
      rcases Success.map_eq_map_iff.1 (applyFor_finish (S := S) (q := q) statement d) with
        ⟨fault, hturn, hstep⟩ | ⟨turned, after, hturn, hstep, hsame⟩
      · rw [hturn, hstep]
        rfl
      · rw [Success.bind_ok hturn, Success.bind_ok hstep]
        calc (rest.foldlM (q.applyFor S) turned).map q.finish
          _ = (q.restrictToAll S rest turned).result.map q.finish := ih turned
          _ = (q.restrictToAll S rest (q.finish turned)).result :=
            (restrictToAll_finish rest turned).symm
          _ = (q.restrictToAll S rest (q.finish after)).result := by rw [hsame]
          _ = (q.restrictToAll S rest after).result.map q.finish :=
            restrictToAll_finish rest after

/-! ## The first fault -/

/-- A fault ends a run: what would come next leaves no trace, not even a record. -/
theorem restrictToAll_stops {before : List (Described M)} {d : Described M}
    {statement middle : Select M} {fault : Fault}
    (hbefore : (q.restrictToAll S before statement).result = .ok middle)
    (hfault : (q.restrictTo S middle d).result = .error fault) (after : List (Described M)) :
    q.restrictToAll S (before ++ d :: after) statement =
      q.restrictToAll S (before ++ [d]) statement := by
  induction before generalizing statement with
  | nil =>
      obtain rfl : statement = middle := Except.ok.inj hbefore
      simp only [List.nil_append, restrictToAll, Outcome.andThen, hfault]
  | cons e before ih =>
      rw [restrictToAll_cons] at hbefore
      obtain ⟨next, hnext, hrest⟩ := Success.bind_eq_ok_iff.1 hbefore
      simp only [List.cons_append, restrictToAll, Outcome.andThen, hnext, ih hrest]

/-- A step looks up the registrations of its own entity and no others. -/
theorem restrictTo_askedOf {registry : Registry M} {d : Described M}
    (h : (q.askedOf registry).registrationsFor d = q.registrationsFor d) (statement : Select M) :
    (q.askedOf registry).restrictTo S statement d = q.restrictTo S statement d := by
  have hrules : (q.askedOf registry).rulesFor S d = q.rulesFor S d := by
    cases d with
    | renamed m => rfl
    | model m =>
        have hentries : registry.entriesFor m q.effectiveAction =
            q.registry.entriesFor m q.effectiveAction := h
        have haction : (q.askedOf registry).effectiveAction = q.effectiveAction := rfl
        have hregistry : (q.askedOf registry).registry = registry := rfl
        simp only [rulesFor, Registry.evaluate, Registry.lookup, haction, hregistry, hentries]
        rfl
  unfold restrictTo
  rw [hrules]
  rfl

theorem restrictToAll_askedOf {registry : Registry M} {entities : List (Described M)}
    (h : ∀ d ∈ entities, (q.askedOf registry).registrationsFor d = q.registrationsFor d)
    (statement : Select M) :
    (q.askedOf registry).restrictToAll S entities statement =
      q.restrictToAll S entities statement := by
  induction entities generalizing statement with
  | nil => rfl
  | cons d rest ih =>
      rw [List.forall_mem_cons] at h
      rw [restrictToAll, restrictToAll, restrictTo_askedOf h.1, funext (ih h.2)]

/-- A run that fails for an entity goes the same way with any registry that has the same
registrations up to this entity. -/
theorem restrictToAll_askedOf_of_fault {registry : Registry M} {before : List (Described M)}
    {d : Described M} {statement reached : Select M} {fault : Fault}
    (h : ∀ e ∈ before ++ [d], (q.askedOf registry).registrationsFor e = q.registrationsFor e)
    (hreached : (q.restrictToAll S before statement).result = .ok reached)
    (hfault : (q.restrictTo S reached d).result = .error fault) (after : List (Described M)) :
    (q.askedOf registry).restrictToAll S (before ++ d :: after) statement =
      q.restrictToAll S (before ++ d :: after) statement := by
  have hbefore : ∀ e ∈ before, (q.askedOf registry).registrationsFor e = q.registrationsFor e :=
    fun e he => h e (by simp [he])
  have hreached' :
      ((q.askedOf registry).restrictToAll S before statement).result = .ok reached := by
    rw [restrictToAll_askedOf hbefore, hreached]
  have hfault' : ((q.askedOf registry).restrictTo S reached d).result = .error fault := by
    rw [restrictTo_askedOf (h d (by simp)), hfault]
  calc (q.askedOf registry).restrictToAll S (before ++ d :: after) statement
    _ = (q.askedOf registry).restrictToAll S (before ++ [d]) statement :=
      restrictToAll_stops hreached' hfault' after
    _ = q.restrictToAll S (before ++ [d]) statement := restrictToAll_askedOf h statement
    _ = q.restrictToAll S (before ++ d :: after) statement :=
      (restrictToAll_stops hreached hfault after).symm

/-- A request comes to what applying rules in turn comes to, entity by entity, with repeated rows
dropped at the end if so configured. When the turn of an entity fails, the request fails with the
same fault, and what is registered for later entities alone is not looked up: with another registry
that has the same registrations up to the failing entity, the request has the same outcome, records
included. -/
theorem accessible_eq_applied_in_turn (q : Request M) (S : Schema M) (statement : Select M) :
    let entities := statement.selected.filterMap Selected.described?
    (q.accessible S statement).result =
        (entities.foldlM (q.applyFor S) statement).map q.finish ∧
      ∀ before d after middle fault, entities = before ++ d :: after →
        before.foldlM (q.applyFor S) statement = .ok middle →
        q.applyFor S middle d = .error fault →
        (q.accessible S statement).result = .error fault ∧
        ∀ registry : Registry M,
          (∀ e ∈ before ++ [d],
            (q.askedOf registry).registrationsFor e = q.registrationsFor e) →
          (q.askedOf registry).accessible S statement = q.accessible S statement := by
  intro entities
  have hturns : (q.accessible S statement).result =
      (entities.foldlM (q.applyFor S) statement).map q.finish :=
    (accessible_result statement).trans (foldlM_applyFor entities statement).symm
  refine ⟨hturns, fun before d after middle fault hentities hbefore hfault => ⟨?_, ?_⟩⟩
  · rw [hturns, hentities, List.foldlM_append, Success.bind_ok hbefore, List.foldlM_cons, hfault]
    rfl
  · intro registry hregistry
    obtain ⟨e, hfails, -⟩ | ⟨turned, reached, hturned, hreached, hsame⟩ :=
      Success.map_eq_map_iff.1 (foldlM_applyFor (S := S) (q := q) before statement)
    · rw [hbefore] at hfails
      cases hfails
    · obtain rfl : middle = turned := Except.ok.inj (hbefore.symm.trans hturned)
      have hstep : (q.restrictTo S (q.finish reached) d).result = .error fault := by
        rw [← hsame, restrictTo_finish, ← applyFor_finish, hfault]
        rfl
      rw [restrictTo_finish, Success.map_eq_error_iff] at hstep
      have hrun := restrictToAll_askedOf_of_fault hregistry hreached hstep after
      rw [← hentities] at hrun
      unfold accessible
      dsimp only
      rw [hrun]
      rfl

open Sample in
/-- What is registered for tags builds no tree of conditions, so the request fails there, and it
does not matter that something could be registered for users. -/
theorem accessible_eq_applied_in_turn_tags :
    let posts : Registration Entity := ⟨.post, .text "read",
      fun _ => .ok (.plain [(.text "locked", .bool false)]), .bool true, "unlocked", ""⟩
    let tags : Registration Entity :=
      ⟨.tag, .text "read", fun _ => .ok (.int 3), .bool true, "third", ""⟩
    let users := RuleFunction.unconditional.registration Entity.user (.text "read") (.bool true)
    let q : Request Entity := {
      config := {}
      registry := .ofRegistrations [posts, tags]
      reflector := .empty
      actor := .nobody
      action := none }
    let more := Registry.ofRegistrations [posts, tags, users]
    let statement : Select Entity := { selected := [.model .post, .model .tag, .model .user] }
    ∃ middle fault,
      [.model .post].foldlM (q.applyFor schema) statement = .ok middle ∧
      q.applyFor schema middle (.model .tag) = .error fault ∧
      (q.accessible schema statement).result = .error fault ∧
      (q.askedOf more).registrationsFor (.model .user) ≠ q.registrationsFor (.model .user) ∧
      (q.askedOf more).accessible schema statement = q.accessible schema statement := by
  intro posts tags users q more statement
  obtain ⟨-, hstops⟩ := accessible_eq_applied_in_turn q schema statement
  obtain ⟨hfails, hlater⟩ := hstops [.model .post] (.model .tag) [.model .user] _ _ rfl rfl rfl
  refine ⟨_, _, rfl, rfl, hfails, ?_, hlater more ?_⟩
  · have hnone : q.registrationsFor (.model .user) = [] := rfl
    have hsome : (q.askedOf more).registrationsFor (.model .user) = [users] := rfl
    rw [hnone, hsome]
    simp
  · intro e he
    simp only [List.singleton_append, List.mem_cons, List.not_mem_nil, or_false] at he
    rcases he with rfl | rfl <;> rfl

end Request

end RowAccess
