import RowAccess.Proofs.FaultOrigin
/-!
# One entity at a time

A request goes through what a select list describes and restricts the statement once for each
entity. What a single such step can do is said here, and from it what a whole run keeps: the
conditions a statement has are never taken back.
-/

namespace RowAccess

theorem Outcome.andThen_result {α β : Type} (o : Outcome α) (f : α → Outcome β) :
    (o.andThen f).result = o.result >>= fun a => (f a).result := by
  unfold andThen
  cases o.result <;> rfl

namespace Request

variable {M : Type} [DecidableEq M] {S : Schema M} {q : Request M}

/-- The registrations that decide about an entity; renamed copies have none. -/
def registrationsFor (q : Request M) : Described M → List (Registration M)
  | .model m => q.registry.entriesFor m q.effectiveAction
  | .renamed _ => []

theorem rulesFor_model_eq_ok_iff {m : M} {rules : List Rule} :
    q.rulesFor S (.model m) = .ok rules ↔ q.effectiveAction.unhashable? = none ∧
      List.Forall₂ (fun registration rule =>
        Registry.checkedRule S q.actor registration q.effectiveAction = .ok rule)
        (q.registrationsFor (.model m)) rules := by
  unfold rulesFor Registry.evaluate Registry.lookup Registry.checkAction registrationsFor
  simp only [Success.bind_eq_ok_iff, ← Success.mapM_eq_ok_iff, Except.ok.injEq]
  cases q.effectiveAction.unhashable? <;> simp

/-- Whether an entity has rules depends on its registrations alone. -/
theorem rules_eq_nil_iff {d : Described M} {rules : List Rule} (h : q.rulesFor S d = .ok rules) :
    rules = [] ↔ q.registrationsFor d = [] := by
  cases d with
  | model m =>
      have hall := (rulesFor_model_eq_ok_iff.1 h).2
      constructor
      · rintro rfl
        exact List.forall₂_nil_right_iff.1 hall
      · intro hnone
        rw [hnone] at hall
        exact List.forall₂_nil_left_iff.1 hall
  | renamed m =>
      obtain ⟨-, -, rfl⟩ := Success.map_eq_ok_iff.1 h
      simp [registrationsFor]

theorem rulesFor_of_missing {d : Described M} (hmissing : q.registrationsFor d = [])
    (haction : q.effectiveAction.unhashable? = none) : q.rulesFor S d = .ok [] := by
  cases d with
  | model m =>
      rw [rulesFor_model_eq_ok_iff, hmissing]
      exact ⟨haction, .nil⟩
  | renamed m => simp [rulesFor, Registry.checkAction, haction, Except.map]

theorem rulesFor_of_unhashable {d : Described M} {typeName : String}
    (haction : q.effectiveAction.unhashable? = some typeName) :
    q.rulesFor S d = .error (.unhashable typeName) := by
  have hcheck : Registry.checkAction q.effectiveAction = .error (.unhashable typeName) := by
    rw [Registry.checkAction, haction]
  cases d <;> simp only [rulesFor, Registry.evaluate, Registry.lookup, hcheck] <;> rfl

/-! ## A single step -/

/-- Without rules to go by a step does nothing but fail. -/
theorem restrictTo_eq_of_error (statement : Select M) {d : Described M} {fault : Fault}
    (hrules : q.rulesFor S d = .error fault) : q.restrictTo S statement d = ⟨[], .error fault⟩ := by
  unfold restrictTo
  rw [hrules]

theorem restrictTo_eq_unruled (statement : Select M) {d : Described M}
    (hrules : q.rulesFor S d = .ok []) :
    q.restrictTo S statement d = q.unruled S (entityName S d) statement := by
  unfold restrictTo
  rw [hrules]

theorem restrictTo_eq_ruled (statement : Select M) {m : M} {rule : Rule} {rules : List Rule}
    (hrules : q.rulesFor S (.model m) = .ok (rule :: rules)) :
    q.restrictTo S statement (.model m) = q.ruled S m (rule :: rules) statement := by
  unfold restrictTo
  rw [hrules]

/-- What came of one step: without rules the configured decision, with rules the restriction by
them. -/
theorem restrictTo_result (statement : Select M) (d : Described M) :
    (q.restrictTo S statement d).result =
      q.rulesFor S d >>= fun rules =>
        match rules, d with
        | rule :: rest, .model m =>
          (statement.restrict S m (rule :: rest) q.reflector).map (·.statement)
        | _, _ =>
          match q.config.missingRules with
          | .raise => .error (.noRules (.text (entityName S d)) q.effectiveAction)
          | .deny => .ok (statement.filteredBy .never) := by
  cases hrules : q.rulesFor S d with
  | error fault =>
      rw [restrictTo_eq_of_error statement hrules]
      rfl
  | ok rules =>
      cases rules with
      | nil =>
          rw [restrictTo_eq_unruled statement hrules]
          rfl
      | cons rule rest =>
          cases d with
          | renamed m =>
              obtain ⟨-, -, hnil⟩ := Success.map_eq_ok_iff.1 hrules
              cases hnil
          | model m =>
              rw [restrictTo_eq_ruled statement hrules, ruled, Success.bind_ok rfl]
              dsimp only
              cases statement.restrict S m (rule :: rest) q.reflector <;> rfl

/-- A step without registrations that succeeds makes the statement unsatisfiable. -/
theorem restrictTo_of_missing {statement after : Select M} {d : Described M}
    (hmissing : q.registrationsFor d = []) (h : (q.restrictTo S statement d).result = .ok after) :
    q.config.missingRules = .deny ∧ after = statement.filteredBy .never := by
  rw [restrictTo_result] at h
  obtain ⟨rules, hrules, h⟩ := Success.bind_eq_ok_iff.1 h
  obtain rfl := (rules_eq_nil_iff hrules).2 hmissing
  dsimp only at h
  split at h
  · cases h
  · rename_i hdeny
    exact ⟨hdeny, (Except.ok.inj h).symm⟩

/-- A step with registrations that succeeds restricts the statement by the rules they build. -/
theorem restrictTo_of_registered {statement after : Select M} {d : Described M}
    (hregistered : q.registrationsFor d ≠ [])
    (h : (q.restrictTo S statement d).result = .ok after) :
    ∃ m rules restricted, d = .model m ∧ q.rulesFor S d = .ok rules ∧
      statement.restrict S m rules q.reflector = .ok restricted ∧
      after = restricted.statement := by
  rw [restrictTo_result] at h
  obtain ⟨rules, hrules, h⟩ := Success.bind_eq_ok_iff.1 h
  cases d with
  | renamed m => exact absurd rfl hregistered
  | model m =>
      cases rules with
      | nil => exact absurd ((rules_eq_nil_iff hrules).1 rfl) hregistered
      | cons rule rest =>
          obtain ⟨restricted, hrestricted, rfl⟩ := Success.map_eq_ok_iff.1 h
          exact ⟨m, rule :: rest, restricted, rfl, hrules, hrestricted, rfl⟩

/-- Under `raise` a step without registrations fails: an action that cannot be a key is complained
about itself. -/
theorem restrictTo_raise (S : Schema M) (statement : Select M) {d : Described M}
    (hmissing : q.registrationsFor d = []) (hraise : q.config.missingRules = .raise) :
    (q.effectiveAction.unhashable? = none → (q.restrictTo S statement d).result =
      .error (.noRules (.text (entityName S d)) q.effectiveAction)) ∧
    ∀ typeName, q.effectiveAction.unhashable? = some typeName →
      (q.restrictTo S statement d).result = .error (.unhashable typeName) := by
  refine ⟨fun haction => ?_, fun typeName haction => ?_⟩
  · rw [restrictTo_result, Success.bind_ok (rulesFor_of_missing hmissing haction)]
    simp only [hraise]
  · rw [restrictTo_eq_of_error statement (rulesFor_of_unhashable haction)]

/-- Where the fault of a step can come from: from what was handed in, from the decision about an
entity without registrations, or from a rule function. -/
theorem restrictTo_error {statement : Select M} {d : Described M} {fault : Fault}
    (h : (q.restrictTo S statement d).result = .error fault) :
    fault.OfInput ∨
      (q.registrationsFor d = [] ∧
        fault = .noRules (.text (entityName S d)) q.effectiveAction) ∨
      ∃ r ∈ q.registrationsFor d, r.build q.actor = .error fault := by
  rw [restrictTo_result] at h
  have hunruled : (match q.config.missingRules with
      | .raise => Except.error (.noRules (.text (entityName S d)) q.effectiveAction)
      | .deny => .ok (statement.filteredBy .never)) = Except.error fault →
        fault = .noRules (.text (entityName S d)) q.effectiveAction := by
    intro herror
    cases hmissing : q.config.missingRules <;> rw [hmissing] at herror <;> cases herror
    rfl
  rcases Success.bind_eq_error_iff.1 h with hrules | ⟨rules, hrules, h⟩
  · cases d with
    | model m => exact (Registry.evaluate_error hrules).imp_right .inr
    | renamed m =>
        rw [rulesFor, Success.map_eq_error_iff, Registry.checkAction] at hrules
        split at hrules <;> cases hrules
        exact .inl trivial
  · cases rules with
    | nil =>
        have hnone := (rules_eq_nil_iff hrules).1 rfl
        cases d <;> exact .inr (.inl ⟨hnone, hunruled h⟩)
    | cons rule rest =>
        cases d with
        | model m => exact .inl (Select.restrict_error (Success.map_eq_error_iff.1 h))
        | renamed m => exact .inr (.inl ⟨rfl, hunruled h⟩)

/-- A step only adds conditions. -/
theorem conditions_restrictTo {statement after : Select M} {d : Described M}
    (h : (q.restrictTo S statement d).result = .ok after) :
    statement.conditions <+: after.conditions := by
  by_cases hmissing : q.registrationsFor d = []
  · obtain ⟨-, rfl⟩ := restrictTo_of_missing hmissing h
    exact List.prefix_append _ _
  · obtain ⟨m, rules, restricted, -, -, hrestricted, rfl⟩ := restrictTo_of_registered hmissing h
    obtain ⟨joins, restriction, -, -, rfl⟩ := Select.restrict_eq_ok_iff.1 hrestricted
    rw [Select.under_eq]
    exact List.prefix_append _ _

/-! ## A whole run -/

theorem restrictToAll_cons (statement : Select M) (d : Described M) (rest : List (Described M)) :
    (q.restrictToAll S (d :: rest) statement).result =
      (q.restrictTo S statement d).result >>= fun after =>
        (q.restrictToAll S rest after).result := by
  rw [restrictToAll, Outcome.andThen_result]

theorem restrictToAll_append (before after : List (Described M)) (statement : Select M) :
    (q.restrictToAll S (before ++ after) statement).result =
      (q.restrictToAll S before statement).result >>= fun middle =>
        (q.restrictToAll S after middle).result := by
  induction before generalizing statement with
  | nil => rfl
  | cons d before ih =>
      rw [List.cons_append, restrictToAll_cons, restrictToAll_cons]
      cases (q.restrictTo S statement d).result with
      | error fault => rfl
      | ok middle => exact ih middle

/-- The fault of a run is that of a step for one of the entities. -/
theorem exists_restrictTo_error {entities : List (Described M)} {statement : Select M}
    {fault : Fault} (h : (q.restrictToAll S entities statement).result = .error fault) :
    ∃ d ∈ entities, ∃ middle, (q.restrictTo S middle d).result = .error fault := by
  induction entities generalizing statement with
  | nil => cases h
  | cons d entities ih =>
      rw [restrictToAll_cons] at h
      rcases Success.bind_eq_error_iff.1 h with hstep | ⟨middle, -, hrest⟩
      · exact ⟨d, by simp, statement, hstep⟩
      · obtain ⟨e, he, hfault⟩ := ih hrest
        exact ⟨e, by simp [he], hfault⟩

/-- A run only adds conditions. -/
theorem conditions_restrictToAll {entities : List (Described M)} {statement after : Select M}
    (h : (q.restrictToAll S entities statement).result = .ok after) :
    statement.conditions <+: after.conditions := by
  induction entities generalizing statement with
  | nil =>
      cases h
      exact List.prefix_refl _
  | cons d entities ih =>
      rw [restrictToAll_cons] at h
      obtain ⟨middle, hmiddle, hrest⟩ := Success.bind_eq_ok_iff.1 h
      exact (conditions_restrictTo hmiddle).trans (ih hrest)

/-- What is accessible: the statement after the whole run, without repeated rows if so
configured. -/
theorem accessible_result (statement : Select M) :
    (q.accessible S statement).result =
      (q.restrictToAll S (statement.selected.filterMap Selected.described?) statement).result.map
        fun restricted => if q.config.distinct.truthy then restricted.deduplicated
          else restricted := by
  unfold accessible
  rw [Outcome.andThen_result]
  cases (q.restrictToAll S (statement.selected.filterMap Selected.described?) statement).result <;>
    rfl

end Request

end RowAccess
