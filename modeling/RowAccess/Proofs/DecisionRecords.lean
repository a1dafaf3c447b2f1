import RowAccess.Proofs.EntityParts
import RowAccess.Proofs.IteratedRules
/-!
# Records of what was decided

Recording decisions changes nothing about them: a request comes to the same statement or the same
fault. What is recorded is exactly what was decided, entity by entity, with the rules, the joined
paths and the filter that went into the statement. An entity at which the request breaks off is only
mentioned if it breaks off for want of rules, and what comes after it is not mentioned at all.
-/

namespace RowAccess

namespace Outcome

variable {α β : Type}

/-- The records of decisions, without the notes of the compilation. -/
def audited (o : Outcome α) : List Record := o.records.filter fun r => r.channel == .audit

theorem audited_andThen_of_ok {o : Outcome α} {a : α} (h : o.result = .ok a)
    (f : α → Outcome β) : (o.andThen f).audited = o.audited ++ (f a).audited := by
  simp only [andThen, h, audited, List.filter_append]

theorem audited_andThen_of_error {o : Outcome α} {fault : Fault} (h : o.result = .error fault)
    (f : α → Outcome β) : (o.andThen f).audited = o.audited := by
  simp only [andThen, h, audited]

end Outcome

/-! ## What the records say -/

/-- A rule as it is mentioned: whether it allows or denies, and the name it has. -/
def Rule.mention (rule : Rule) : String :=
  (if rule.allows then "can:" else "cannot:") ++ if rule.name = "" then "<anonymous>" else rule.name

namespace Audit

variable {M : Type} (S : Schema M)

/-- The text tells of a filter as it is written with its values left to parameters, or of there
being none. -/
def Shows [DecidableEq M] (filter : Option (Filter M)) (text : String) : Prop :=
  match filter with
  | none => text = "<unconditional>"
  | some f => ∃ written, Sql.writeFilter S .bound f = .ok written ∧ text = written.text

/-- Texts between quotes as a list. -/
theorem listed_eq (texts : List String) :
    listed texts = "[" ++ ", ".intercalate (texts.map Text.quoted) ++ "]" := by
  have hquoted : Value.describeAll (texts.map .text) = texts.map Text.quoted := by
    induction texts with
    | nil => rfl
    | cons s texts ih => exact congrArg (Text.quoted s :: ·) ih
  have hlisted : listed texts =
      "[" ++ Value.commaSeparated (Value.describeAll (texts.map .text)) ++ "]" := rfl
  rw [hlisted, hquoted, Value.commaSeparated]

theorem ruleLabel_eq (rule : Rule) : ruleLabel rule = rule.mention := by
  simp only [ruleLabel, Rule.mention, Rule.shownName, beq_iff_eq]

/-- Whatever is left to parameters can be written. -/
theorem exists_filter_bound (f : Filter M) : ∃ pieces, Sql.filter S .bound f = .ok pieces := by
  induction f with
  | compare comparator c v =>
      have hoperand : ∃ value, Sql.operand .bound c.column v = (.ok value : Except Fault
          (List (Sql.Piece M))) := by
        cases v <;> exact ⟨_, rfl⟩
      obtain ⟨value, hvalue⟩ := hoperand
      exact ⟨_, by rw [Sql.filter, Success.bind_ok hvalue]⟩
  | isNull | isNotNull | among | notAmong | never => exact ⟨_, rfl⟩
  | both left right ihLeft ihRight =>
      obtain ⟨l, hl⟩ := ihLeft
      obtain ⟨r, hr⟩ := ihRight
      exact ⟨_, by rw [Sql.filter, Success.bind_ok hl, Success.bind_ok hr]⟩
  | either left right ihLeft ihRight =>
      obtain ⟨l, hl⟩ := ihLeft
      obtain ⟨r, hr⟩ := ihRight
      exact ⟨_, by rw [Sql.filter, Success.bind_ok hl, Success.bind_ok hr]⟩

theorem shows_filterText [DecidableEq M] (filter : Option (Filter M)) :
    Shows S filter (filterText S filter) := by
  cases filter with
  | none => rfl
  | some f =>
      obtain ⟨pieces, hpieces⟩ := exists_filter_bound S f
      have hwritten : Sql.writeFilter S .bound f = .ok (.ofPieces pieces) := by
        rw [Sql.writeFilter, hpieces]
        rfl
      exact ⟨_, hwritten, by rw [filterText, hwritten]⟩

end Audit

namespace Request

section Reports

variable {M : Type}

/-- The request with decisions recorded or not, by the truth of a value. -/
def recording (q : Request M) (v : Value) : Request M :=
  { q with config := { q.config with recordDecisions := v } }

/-- The warning about an entity without rules: which entity and action it is, and whether the
request is refused for it or the entity is closed. -/
def warning (q : Request M) (S : Schema M) (d : Described M) : Record where
  channel := .audit
  level := .warning
  message := "No rules registered for (" ++ entityName S d ++ ", " ++ q.effectiveAction.describe ++
    ") — " ++ if q.config.missingRules = .raise then "raising NoRulesError"
      else "deny-by-default applied"

/-- The summary of a decision by rules: how many they are, and for whom they were applied. -/
def summary (q : Request M) (S : Schema M) (d : Described M) (rules : List Rule) : Record where
  channel := .audit
  level := .info
  message := "Rule evaluation: " ++ entityName S d ++ "." ++ q.effectiveAction.plainText ++ " — " ++
    toString rules.length ++ " rule(s) applied for actor " ++ q.actor.describe

/-- The details of a decision by rules: every rule with its polarity and name, every joined path,
and the text of the filter. -/
def details (q : Request M) (S : Schema M) (d : Described M) (rules : List Rule)
    (paths : List (List String)) (filter : String) : Record where
  channel := .audit
  level := .debug
  message := "Rules for " ++ entityName S d ++ "." ++ q.effectiveAction.plainText ++ ": [" ++
    ", ".intercalate (rules.map fun rule => Text.quoted rule.mention) ++ "] — joins: [" ++
    ", ".intercalate (paths.map fun path => Text.quoted (".".intercalate path)) ++
    "] — filter: " ++ filter

variable [DecidableEq M]

/-- The report on an entity and the part that was added for it: a warning if the entity has no
rules, or else a summary and the details, with all rules in order, the paths that the part joins and
its filter. -/
inductive Reports (q : Request M) (S : Schema M) (d : Described M) (part : Part M) :
    List Record → Prop
  | unruled (hrules : q.rulesFor S d = .ok []) : Reports q S d part [q.warning S d]
  | ruled {rules : List Rule} {filter : String} (hrules : q.rulesFor S d = .ok rules)
      (hne : rules ≠ []) (hfilter : Audit.Shows S part.filters.head? filter) :
      Reports q S d part [q.summary S d rules, q.details S d rules part.joins.paths filter]

/-- Reports on one part after another. -/
inductive ReportsAll (q : Request M) (S : Schema M) :
    List (Described M) → List (Part M) → List Record → Prop
  | nil : ReportsAll q S [] [] []
  | cons {d : Described M} {part : Part M} {entities : List (Described M)} {parts : List (Part M)}
      {report reports : List Record} (hreport : q.Reports S d part report)
      (hreports : ReportsAll q S entities parts reports) :
      ReportsAll q S (d :: entities) (part :: parts) (report ++ reports)

/-- The rules of an entity cannot be built, or cannot be applied to a statement. -/
def FailsFor (q : Request M) (S : Schema M) (statement : Select M) (d : Described M)
    (fault : Fault) : Prop :=
  q.rulesFor S d = .error fault ∨ ∃ m rules, d = .model m ∧ rules ≠ [] ∧
    q.rulesFor S d = .ok rules ∧ statement.restrict S m rules q.reflector = .error fault

/-- How a request ends with the entities that are left when a statement is reached, and what is
recorded at the end: nothing if no entity is left or if the next one fails, but a warning if the
next one has no rules and is therefore refused. -/
inductive Ends (q : Request M) (S : Schema M) (reached : Select M) :
    List (Described M) → Except Fault (Select M) → List Record → Prop
  | done : Ends q S reached [] (.ok (q.finish reached)) []
  | refused {d : Described M} {later : List (Described M)} (hrules : q.rulesFor S d = .ok [])
      (hraise : q.config.missingRules = .raise) :
      Ends q S reached (d :: later) (.error (.noRules (.text (entityName S d)) q.effectiveAction))
        [q.warning S d]
  | failed {d : Described M} {later : List (Described M)} {fault : Fault}
      (hfails : q.FailsFor S reached d fault) : Ends q S reached (d :: later) (.error fault) []

end Reports

variable {M : Type} [DecidableEq M] {S : Schema M} {q : Request M}

/-! ## A single entity -/

/-- What a step without rules records. -/
theorem audited_restrictTo_of_nil (statement : Select M) {d : Described M}
    (hrules : q.rulesFor S d = .ok []) : (q.restrictTo S statement d).audited =
      if q.config.recordDecisions.truthy then [q.warning S d] else [] := by
  have hwarning : Audit.missing (M := M) ⟨entityName S d, q.effectiveAction, q.actor, [], [], none,
      q.config.missingRules⟩ = q.warning S d := by
    rw [warning, Audit.missing]
    cases q.config.missingRules <;> rfl
  rw [restrictTo_eq_unruled statement hrules, ← hwarning]
  unfold unruled decisionRecords Outcome.audited
  split <;> rfl

/-- What a step with rules records. -/
theorem audited_restrictTo_of_cons {statement : Select M} {m : M} {rule : Rule} {rules : List Rule}
    {restricted : Restricted M} (hrules : q.rulesFor S (.model m) = .ok (rule :: rules))
    (hrestricted : statement.restrict S m (rule :: rules) q.reflector = .ok restricted) :
    (q.restrictTo S statement (.model m)).audited = if q.config.recordDecisions.truthy then
      [q.summary S (.model m) (rule :: rules), q.details S (.model m) (rule :: rules)
        restricted.joins.paths (Audit.filterText S restricted.restriction.filter?)] else [] := by
  have hlifted : ((Audit.lifted (S.model m).name restricted.restriction).filter
      fun r => r.channel == .audit) = [] := by
    cases restricted.restriction <;> rfl
  have hdetails : Audit.details S ⟨(S.model m).name, q.effectiveAction, q.actor, rule :: rules,
      restricted.joins.paths, restricted.restriction.filter?, .deny⟩ =
        q.details S (.model m) (rule :: rules) restricted.joins.paths
          (Audit.filterText S restricted.restriction.filter?) := by
    have hrules : ": [" = ": " ++ "[" := rfl
    have hjoins : "] — joins: [" = "]" ++ (" — joins: " ++ "[") := rfl
    have hfilter : "] — filter: " = "]" ++ " — filter: " := rfl
    simp only [Audit.details, details, Audit.listed_eq, funext Audit.ruleLabel_eq, List.map_map,
      Function.comp_def, entityName, String.append_assoc]
    rw [hrules, hjoins, hfilter]
    simp only [String.append_assoc]
  rw [restrictTo_eq_ruled statement hrules, ← hdetails, ruled, hrestricted]
  simp only [Outcome.audited, List.filter_append, hlifted, List.nil_append]
  unfold decisionRecords
  split <;> rfl

/-- A step that succeeds adds a part to the statement and reports on this part. -/
theorem audited_restrictTo_of_ok {statement after : Select M} {d : Described M}
    (h : (q.restrictTo S statement d).result = .ok after) :
    ∃ part report, q.Restricts S statement.scopes d part ∧ after = statement.adding part ∧
      q.Reports S d part report ∧ (q.restrictTo S statement d).audited =
        if q.config.recordDecisions.truthy then report else [] := by
  obtain ⟨part, hpart, hafter⟩ := restrictTo_eq_ok_iff.1 h
  cases hpart with
  | closed hrules hdeny =>
      exact ⟨_, _, .closed hrules hdeny, hafter, .unruled hrules,
        audited_restrictTo_of_nil statement hrules⟩
  | @ruled m rules joins restriction hrules hne hjoins hcompile =>
      cases rules with
      | nil => exact absurd rfl hne
      | cons rule rules =>
          have hrestricted : statement.restrict S m (rule :: rules) q.reflector =
              .ok ⟨(statement.attach joins).under restriction, joins, restriction⟩ :=
            Select.restrict_eq_ok_iff.2 ⟨joins, restriction, hjoins, hcompile, rfl⟩
          have hhead : restriction.filter?.toList.head? = restriction.filter? := by
            cases restriction.filter? <;> rfl
          have hshows := Audit.shows_filterText S restriction.filter?
          rw [← hhead] at hshows
          refine ⟨_, _, .ruled hrules hne hjoins hcompile, hafter, .ruled hrules hne hshows, ?_⟩
          rw [audited_restrictTo_of_cons hrules hrestricted, hhead]

/-- A step that fails ends the request. -/
theorem audited_restrictTo_of_error {statement : Select M} {d : Described M} {fault : Fault}
    (h : (q.restrictTo S statement d).result = .error fault) (later : List (Described M)) :
    ∃ last, q.Ends S statement (d :: later) (.error fault) last ∧
      (q.restrictTo S statement d).audited =
        if q.config.recordDecisions.truthy then last else [] := by
  rcases rulesFor_cases S q d with ⟨cause, hrules⟩ | hrules | ⟨m, rule, rules, rfl, hrules⟩
  · rw [restrictTo_eq_of_error statement hrules] at h ⊢
    cases h
    exact ⟨[], .failed (.inl hrules), by simp [Outcome.audited]⟩
  · rw [audited_restrictTo_of_nil statement hrules]
    rw [restrictTo_of_nil statement hrules, withoutRules] at h
    cases hraise : q.config.missingRules with
    | deny =>
        rw [hraise] at h
        cases h
    | raise =>
        rw [hraise] at h
        cases h
        exact ⟨_, .refused hrules hraise, rfl⟩
  · rw [restrictTo_of_cons statement hrules, Success.map_eq_error_iff] at h
    rw [restrictTo_eq_ruled statement hrules, ruled, h]
    exact ⟨[], .failed (.inr ⟨m, _, rfl, by simp, hrules, h⟩), by simp [Outcome.audited]⟩

/-! ## All entities -/

/-- A run decides about some of the entities, one after the other, reports on each of them, and
ends. -/
theorem audited_restrictToAll (entities : List (Described M)) (statement : Select M) :
    ∃ decided parts undecided reports last, entities = decided ++ undecided ∧
      q.Runs S statement.scopes decided parts ∧ q.ReportsAll S decided parts reports ∧
      q.Ends S (parts.foldl Select.adding statement) undecided
        ((q.restrictToAll S entities statement).result.map q.finish) last ∧
      (q.restrictToAll S entities statement).audited =
        if q.config.recordDecisions.truthy then reports ++ last else [] := by
  induction entities generalizing statement with
  | nil =>
      exact ⟨[], [], [], [], [], rfl, .nil _, .nil, .done, by simp [restrictToAll, Outcome.audited]⟩
  | cons d entities ih =>
      cases hstep : (q.restrictTo S statement d).result with
      | error fault =>
          obtain ⟨last, hends, haudited⟩ := audited_restrictTo_of_error hstep entities
          refine ⟨[], [], d :: entities, [], last, rfl, .nil _, .nil, ?_, ?_⟩
          · rw [restrictToAll_cons, hstep]
            exact hends
          · rw [restrictToAll, Outcome.audited_andThen_of_error hstep, haudited]
            rfl
      | ok after =>
          obtain ⟨part, report, hpart, rfl, hreport, haudited⟩ := audited_restrictTo_of_ok hstep
          obtain ⟨decided, parts, undecided, reports, last, rfl, hruns, hreports, hends, hrest⟩ :=
            ih (statement.adding part)
          refine ⟨d :: decided, part :: parts, undecided, report ++ reports, last, rfl,
            .cons hpart hruns, .cons hreport hreports, ?_, ?_⟩
          · rw [restrictToAll_cons, Success.bind_ok hstep]
            exact hends
          · rw [restrictToAll, Outcome.audited_andThen_of_ok hstep, haudited, hrest]
            split <;> simp

theorem restrictToAll_recording (v : Value) (entities : List (Described M))
    (statement : Select M) : ((q.recording v).restrictToAll S entities statement).result =
      (q.restrictToAll S entities statement).result := by
  induction entities generalizing statement with
  | nil => rfl
  | cons d entities ih =>
      have hstep : ((q.recording v).restrictTo S statement d).result =
          (q.restrictTo S statement d).result := by
        rw [restrictTo_result, restrictTo_result]
        rfl
      simp only [restrictToAll_cons, hstep, ih]

/-- Whether decisions are recorded does not matter to a request. If they are not, there is no record
of a decision. If they are, the records are the reports on the entities that were decided, in order
and on the very parts that the statement was given for them, followed by the warning about the next
entity if the request ends because it has no rules. -/
theorem accessible_audited (q : Request M) (S : Schema M) (statement : Select M) :
    (∀ v, ((q.recording v).accessible S statement).result = (q.accessible S statement).result) ∧
    ∃ decided parts undecided reports last,
      statement.selected.filterMap Selected.described? = decided ++ undecided ∧
      q.Runs S statement.scopes decided parts ∧ q.ReportsAll S decided parts reports ∧
      q.Ends S (parts.foldl Select.adding statement) undecided (q.accessible S statement).result
        last ∧
      (q.accessible S statement).audited =
        if q.config.recordDecisions.truthy then reports ++ last else [] := by
  constructor
  · intro v
    rw [accessible_result, accessible_result, restrictToAll_recording]
    rfl
  · obtain ⟨decided, parts, undecided, reports, last, hentities, hruns, hreports, hends,
      haudited⟩ := audited_restrictToAll (S := S) (q := q)
        (statement.selected.filterMap Selected.described?) statement
    refine ⟨decided, parts, undecided, reports, last, hentities, hruns, hreports, ?_, ?_⟩
    · rw [accessible_result]
      exact hends
    · rw [← haudited]
      unfold accessible
      cases hrun : (q.restrictToAll S (statement.selected.filterMap Selected.described?)
          statement).result with
      | error fault => rw [Outcome.audited_andThen_of_error hrun]
      | ok after =>
          rw [Outcome.audited_andThen_of_ok hrun]
          simp [Outcome.audited]

open Sample in
/-- Posts are decided, tags are refused, and the posts that come after are not mentioned. -/
example :
    let posts : Registration Entity := ⟨.post, .text "read",
      fun _ => .ok (.plain [(.text "locked", .bool false)]), .bool true, "unlocked", ""⟩
    let q : Request Entity := {
      config := { missingRules := .raise, recordDecisions := .bool true }
      registry := .ofRegistrations [posts]
      reflector := .empty
      actor := .nobody
      action := none }
    let statement : Select Entity := { selected := [.model .post, .model .tag, .model .post] }
    (q.accessible schema statement).audited.map (·.level) = [.info, .debug, .warning] := rfl

end Request

end RowAccess
