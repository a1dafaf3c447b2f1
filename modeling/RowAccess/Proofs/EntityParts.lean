import RowAccess.Proofs.AccessibleSteps
import RowAccess.Proofs.Scopes
/-!
# What each entity adds

A request adds to a statement one part for each entity, joins and filters in a scope of their own.
The parts are independent: each is what the same entity adds to any other statement, up to the
scope, and rows for the parts can be chosen one by one and put together.
-/

namespace RowAccess

/-- What one entity adds to a statement: joins, filters, and the number of scopes it takes. -/
structure Part (M : Type) where
  joins : JoinSet M
  filters : List (Filter M)
  scopes : Nat

/-- The model that a select list describes, be it in its own role or renamed. -/
def Described.entity {M : Type} : Described M → M
  | .model m | .renamed m => m

/-- A statement with a part added. -/
def Select.adding {M : Type} (statement : Select M) (part : Part M) : Select M :=
  { statement with
    joins := statement.joins ++ part.joins.joins
    conditions := statement.conditions ++ part.filters
    scopes := statement.scopes + part.scopes }

/-- The same part in another scope. -/
def Part.rescope {M : Type} (k : Nat) (part : Part M) : Part M :=
  ⟨part.joins.rescope k, part.filters.map (Filter.rescope k), part.scopes⟩

theorem Part.checkValues_rescope {M : Type} (part : Part M) (k : Nat) :
    (∀ f ∈ (part.rescope k).filters, f.checkValues = .ok ()) ↔
      ∀ f ∈ part.filters, f.checkValues = .ok () := by
  simp [rescope, Filter.checkValues_rescope]

theorem Select.foldl_adding {M : Type} (statement : Select M) (parts : List (Part M)) :
    ∃ scopes, parts.foldl Select.adding statement =
      { statement with
        joins := statement.joins ++ parts.flatMap fun part => part.joins.joins
        conditions := statement.conditions ++ parts.flatMap fun part => part.filters
        scopes := scopes } := by
  induction parts generalizing statement with
  | nil => exact ⟨statement.scopes, by simp⟩
  | cons part parts ih =>
      obtain ⟨scopes, hscopes⟩ := ih (statement.adding part)
      refine ⟨scopes, ?_⟩
      rw [List.foldl_cons, hscopes]
      simp [adding]

namespace Request

variable {M : Type} [DecidableEq M]

/-- The part that an entity adds in a scope: without rules a filter that no row satisfies, if that
is what is configured, and with rules the joins they need and the filter they compile to. -/
inductive Restricts (q : Request M) (S : Schema M) (scope : Nat) : Described M → Part M → Prop
  | closed {d : Described M} (hrules : q.rulesFor S d = .ok [])
      (hdeny : q.config.missingRules = .deny) :
      Restricts q S scope d ⟨JoinSet.empty d.entity q.reflector scope, [.never], 0⟩
  | ruled {m : M} {rules : List Rule} {joins : JoinSet M} {restriction : Restriction M}
      (hrules : q.rulesFor S (.model m) = .ok rules) (hne : rules ≠ [])
      (hjoins : (JoinSet.empty m q.reflector scope).addAll S
        (rules.flatMap fun rule => rule.conditions.joinPaths) = (joins, none))
      (hcompile : Rule.compile S m rules (some joins) q.reflector = .ok restriction) :
      Restricts q S scope (.model m) ⟨joins, restriction.filter?.toList, 1⟩

/-- The parts that entities add one after the other, each in the next free scope. -/
inductive Runs (q : Request M) (S : Schema M) : Nat → List (Described M) → List (Part M) → Prop
  | nil (scope : Nat) : Runs q S scope [] []
  | cons {scope : Nat} {d : Described M} {part : Part M} {entities : List (Described M)}
      {parts : List (Part M)} (hfirst : q.Restricts S scope d part)
      (hrest : Runs q S (scope + part.scopes) entities parts) :
      Runs q S scope (d :: entities) (part :: parts)

variable {q : Request M} {S : Schema M} {scope : Nat} {d : Described M} {part : Part M}

/-- A step adds the part of its entity. -/
theorem restrictTo_eq_ok_iff {statement after : Select M} :
    (q.restrictTo S statement d).result = .ok after ↔
      ∃ part, q.Restricts S statement.scopes d part ∧ after = statement.adding part := by
  have hrestrict : ∀ {m rules joins restriction},
      statement.joinsFor S m rules q.reflector = (joins, none) →
        (statement.attach joins).under restriction =
          statement.adding ⟨joins, restriction.filter?.toList, 1⟩ := by
    intro m rules joins restriction hjoins
    rw [Select.under_eq]
    simp [Select.attach, Select.adding, (JoinSet.joinsFor_frame hjoins).2.1]
  constructor
  · intro h
    by_cases hmissing : q.registrationsFor d = []
    · obtain ⟨hdeny, rfl⟩ := restrictTo_of_missing hmissing h
      rw [restrictTo_result] at h
      obtain ⟨rules, hrules, -⟩ := Success.bind_eq_ok_iff.1 h
      obtain rfl := (rules_eq_nil_iff hrules).2 hmissing
      refine ⟨_, .closed hrules hdeny, ?_⟩
      simp [Select.filteredBy, Select.adding, JoinSet.joins, JoinSet.empty]
    · obtain ⟨m, rules, restricted, rfl, hrules, hrestricted, rfl⟩ :=
        restrictTo_of_registered hmissing h
      obtain ⟨joins, restriction, hjoins, hcompile, rfl⟩ :=
        Select.restrict_eq_ok_iff.1 hrestricted
      have hne : rules ≠ [] := fun hnil => hmissing ((rules_eq_nil_iff hrules).1 hnil)
      exact ⟨_, .ruled hrules hne hjoins hcompile, hrestrict hjoins⟩
  · rintro ⟨part, hpart, rfl⟩
    rw [restrictTo_result]
    cases hpart with
    | closed hrules hdeny =>
        rw [Success.bind_ok hrules]
        simp only [hdeny]
        simp [Select.filteredBy, Select.adding, JoinSet.joins, JoinSet.empty]
    | @ruled m rules joins restriction hrules hne hjoins hcompile =>
        rw [Success.bind_ok hrules]
        cases rules with
        | nil => exact absurd rfl hne
        | cons rule rest =>
            have hok := Select.restrict_eq_ok_iff.2 ⟨joins, restriction, hjoins, hcompile, rfl⟩
            show (statement.restrict S m (rule :: rest) q.reflector).map (·.statement) = _
            rw [hok]
            exact congrArg Except.ok (hrestrict hjoins)

/-- A run adds the parts of its entities. -/
theorem restrictToAll_eq_ok_iff {entities : List (Described M)} {statement after : Select M} :
    (q.restrictToAll S entities statement).result = .ok after ↔
      ∃ parts, q.Runs S statement.scopes entities parts ∧
        after = parts.foldl Select.adding statement := by
  induction entities generalizing statement with
  | nil =>
      constructor
      · intro h
        cases h
        exact ⟨[], .nil _, rfl⟩
      · rintro ⟨parts, hruns, rfl⟩
        cases hruns
        rfl
  | cons d entities ih =>
      rw [restrictToAll_cons, Success.bind_eq_ok_iff]
      constructor
      · rintro ⟨middle, hmiddle, hrest⟩
        obtain ⟨part, hpart, rfl⟩ := restrictTo_eq_ok_iff.1 hmiddle
        obtain ⟨parts, hparts, rfl⟩ := ih.1 hrest
        exact ⟨part :: parts, .cons hpart hparts, rfl⟩
      · rintro ⟨parts, hruns, rfl⟩
        cases hruns with
        | cons hfirst hrest =>
            exact ⟨_, restrictTo_eq_ok_iff.2 ⟨_, hfirst, rfl⟩, ih.2 ⟨_, hrest, rfl⟩⟩

/-! ## Single parts -/

theorem Restricts.sound (h : q.Restricts S scope d part) : part.joins.Sound S := by
  cases h with
  | closed hrules hdeny => exact .empty _ _ _
  | @ruled m rules joins restriction hrules hne hjoins hcompile =>
      have hsound := (JoinSet.Sound.empty (S := S) m q.reflector scope).addAll
        (rules.flatMap fun rule => rule.conditions.joinPaths)
      rw [hjoins] at hsound
      exact hsound

theorem Restricts.frame (h : q.Restricts S scope d part) :
    part.joins.model = d.entity ∧ part.joins.scope = scope := by
  cases h with
  | closed hrules hdeny => exact ⟨rfl, rfl⟩
  | @ruled m rules joins restriction hrules hne hjoins hcompile =>
      obtain ⟨joined, hframe⟩ := JoinSet.addAll_frame (S := S)
        (rules.flatMap fun rule => rule.conditions.joinPaths) (JoinSet.empty m q.reflector scope)
      rw [hjoins] at hframe
      obtain rfl : joins = _ := hframe
      exact ⟨rfl, rfl⟩

theorem Restricts.source_mem (h : q.Restricts S scope d part) :
    ∀ f ∈ part.filters, ∀ s ∈ Layout.filterSources f,
      s = .own part.joins.model ∨ s ∈ part.joins.joins.map (·.target) := by
  have hframe := h.frame
  have hsound := h.sound
  cases h with
  | closed hrules hdeny => simp [Layout.filterSources]
  | ruled hrules hne hjoins hcompile =>
      exact Restriction.source_mem_of_compile hsound hframe.1 hcompile

/-- The sources that a part joins are in its scope. -/
theorem Restricts.target_role (h : q.Restricts S scope d part) {s : Source M}
    (hs : s ∈ part.joins.joins.map (·.target)) :
    (∃ path, s.role = .joined scope path) ∧ part.scopes = 1 := by
  have hscope := h.frame.2
  rw [JoinSet.targets_eq] at hs
  obtain ⟨j, hj, rfl⟩ := List.mem_map.1 hs
  refine ⟨⟨j.path, by rw [JoinSet.sourceOf, hscope]⟩, ?_⟩
  cases h with
  | closed hrules hdeny => simp [JoinSet.empty] at hj
  | ruled hrules hne hjoins hcompile => rfl

/-- What an entity adds is determined by the scope. -/
theorem Restricts.unique {part' : Part M} (h : q.Restricts S scope d part)
    (h' : q.Restricts S scope d part') : part = part' := by
  cases h with
  | closed hrules hdeny =>
      cases h' with
      | closed hrules' hdeny' => rfl
      | ruled hrules' hne hjoins hcompile =>
          rw [hrules] at hrules'
          exact absurd (Except.ok.inj hrules').symm hne
  | ruled hrules hne hjoins hcompile =>
      cases h' with
      | closed hrules' hdeny' =>
          rw [hrules] at hrules'
          exact absurd (Except.ok.inj hrules') hne
      | ruled hrules' hne' hjoins' hcompile' =>
          rw [hrules] at hrules'
          obtain rfl := Except.ok.inj hrules'
          rw [hjoins] at hjoins'
          obtain ⟨rfl, -⟩ := Prod.mk.inj hjoins'
          rw [hcompile] at hcompile'
          obtain rfl := Except.ok.inj hcompile'
          rfl

/-- In another scope an entity adds the same part. -/
theorem Restricts.rescope (h : q.Restricts S scope d part) (k : Nat) :
    q.Restricts S k d (part.rescope k) := by
  cases h with
  | closed hrules hdeny => exact .closed hrules hdeny
  | @ruled m rules joins restriction hrules hne hjoins hcompile =>
      have hjoins' := JoinSet.addAll_rescope (S := S) k
        (rules.flatMap fun rule => rule.conditions.joinPaths) (JoinSet.empty m q.reflector scope)
      rw [hjoins] at hjoins'
      have hcompile' := Rule.compile_rescope (S := S) k m joins q.reflector rules
      rw [hcompile] at hcompile'
      have hpart := Restricts.ruled hrules hne hjoins' hcompile'
      rw [Restriction.filter?_rescope] at hpart
      have hfilters : (restriction.filter?.map (Filter.rescope k)).toList =
          restriction.filter?.toList.map (Filter.rescope k) := by
        cases restriction.filter? <;> rfl
      rw [hfilters] at hpart
      exact hpart

/-- In another scope a part admits the same rows. -/
theorem Restricts.admits_rescope (h : q.Restricts S scope d part) (k : Nat) {db : Database M}
    {x : Row} : (part.rescope k).joins.Admits db (part.rescope k).filters x ↔
      part.joins.Admits db part.filters x := by
  constructor
  · exact JoinSet.Admits.of_rescope k
  · intro hadmits
    have hback : (part.rescope k).rescope scope = part :=
      ((h.rescope k).rescope scope).unique h
    rw [← hback] at hadmits
    exact JoinSet.Admits.of_rescope scope hadmits

/-! ## Parts side by side -/

variable {entities : List (Described M)} {parts : List (Part M)}

/-- The joins of all parts, in order. -/
def joinsOf (parts : List (Part M)) : List (Join M) := parts.flatMap fun part => part.joins.joins

/-- Every entity of a run adds a part. -/
theorem Runs.exists_part (h : q.Runs S scope entities parts) (hd : d ∈ entities) :
    ∃ n, ∃ part ∈ parts, q.Restricts S n d part := by
  induction h with
  | nil scope => simp at hd
  | @cons scope e part entities parts hfirst hrest ih =>
      rcases List.mem_cons.1 hd with rfl | hd
      · exact ⟨scope, part, List.mem_cons_self, hfirst⟩
      · obtain ⟨n, part', hpart', hlater⟩ := ih hd
        exact ⟨n, part', List.mem_cons_of_mem _ hpart', hlater⟩

/-- Every part of a run is that of an entity. -/
theorem Runs.exists_entity (h : q.Runs S scope entities parts) (hpart : part ∈ parts) :
    ∃ n, ∃ d ∈ entities, q.Restricts S n d part := by
  induction h with
  | nil scope => simp at hpart
  | @cons scope e first entities parts hfirst hrest ih =>
      rcases List.mem_cons.1 hpart with rfl | hpart
      · exact ⟨scope, e, List.mem_cons_self, hfirst⟩
      · obtain ⟨n, d, hd, hlater⟩ := ih hpart
        exact ⟨n, d, List.mem_cons_of_mem _ hd, hlater⟩

theorem Runs.target_role (h : q.Runs S scope entities parts) {s : Source M}
    (hs : s ∈ (joinsOf parts).map (·.target)) : ∃ n path, scope ≤ n ∧ s.role = .joined n path := by
  induction h with
  | nil scope => simp [joinsOf] at hs
  | cons hfirst hrest ih =>
      rw [joinsOf, List.flatMap_cons, List.map_append, List.mem_append] at hs
      rcases hs with hs | hs
      · obtain ⟨⟨path, hpath⟩, -⟩ := hfirst.target_role hs
        exact ⟨_, path, le_refl _, hpath⟩
      · obtain ⟨n, path, hn, hpath⟩ := ih hs
        exact ⟨n, path, by omega, hpath⟩

/-- What a part joins is joined by no later part. -/
theorem Runs.disjoint (hfirst : q.Restricts S scope d part)
    (hrest : q.Runs S (scope + part.scopes) entities parts) {s : Source M}
    (hs : s ∈ part.joins.joins.map (·.target)) : s ∉ (joinsOf parts).map (·.target) := by
  intro hlater
  obtain ⟨⟨path, hpath⟩, hscopes⟩ := hfirst.target_role hs
  obtain ⟨n, path', hn, hpath'⟩ := hrest.target_role hlater
  rw [hpath] at hpath'
  obtain ⟨rfl, -⟩ := Role.joined.inj hpath'
  omega

theorem Runs.linked (h : q.Runs S scope entities parts) :
    Database.Linked (entities.map fun d => .own d.entity) (joinsOf parts) := by
  induction h with
  | nil scope => exact .nil
  | @cons scope d part entities parts hfirst hrest ih =>
      have hown : ∀ {s : Source M} {n path}, s.role = .joined n path →
          s ∉ (d :: entities).map fun d => Source.own d.entity := by
        intro s n path hrole hmem
        obtain ⟨e, -, rfl⟩ := List.mem_map.1 hmem
        cases hrole
      rw [joinsOf, List.flatMap_cons]
      apply Database.Linked.append
      · refine hfirst.sound.linked.mono ?_ fun j hj => ?_
        · simp [hfirst.frame.1]
        · obtain ⟨⟨path, hpath⟩, -⟩ := hfirst.target_role (List.mem_map_of_mem hj)
          exact hown hpath
      · apply ih.mono (by simp)
        intro j hj
        obtain ⟨n, path, -, hpath⟩ := hrest.target_role (List.mem_map_of_mem hj)
        exact hown hpath
      · intro j hj hmem
        exact Runs.disjoint hfirst hrest hmem (List.mem_map_of_mem hj)

/-- The filters of the parts read the described models and what is joined to them. -/
theorem Runs.source_mem (h : q.Runs S scope entities parts) {f : Filter M}
    (hf : f ∈ parts.flatMap fun part => part.filters) {s : Source M}
    (hs : s ∈ Layout.filterSources f) :
    s ∈ (entities.map fun d => .own d.entity) ∨ s ∈ (joinsOf parts).map (·.target) := by
  induction h with
  | nil scope => simp at hf
  | @cons scope d part entities parts hfirst hrest ih =>
      rw [joinsOf, List.flatMap_cons, List.map_append, List.mem_append, List.map_cons,
        List.mem_cons]
      rw [List.flatMap_cons, List.mem_append] at hf
      rcases hf with hf | hf
      · rcases hfirst.source_mem f hf s hs with rfl | hmem
        · rw [hfirst.frame.1]
          exact .inl (.inl rfl)
        · exact .inr (.inl hmem)
      · rcases ih hf with hmem | hmem
        · exact .inl (.inr hmem)
        · exact .inr (.inr hmem)

/-- Rows can be chosen for each part by itself: if every part admits the row an assignment has for
its model, some assignment satisfies all parts at once and differs from the first only in what is
joined. -/
theorem Runs.exists_assignment (h : q.Runs S scope entities parts) {db : Database M}
    {a : Assignment M} (hadmits : ∀ part ∈ parts, ∃ x,
      a (.own part.joins.model) = some x ∧ part.joins.Admits db part.filters x) :
    ∃ b, (∀ s, s ∉ (joinsOf parts).map (·.target) → b s = a s) ∧
      db.Respects (joinsOf parts) b ∧
      ∀ f ∈ parts.flatMap fun part => part.filters, f.holds b = true := by
  induction h with
  | nil scope => exact ⟨a, fun _ _ => rfl, by simp [joinsOf, Database.Respects], by simp⟩
  | @cons scope d part entities parts hfirst hrest ih =>
      obtain ⟨later, hlater, hlaterRespects, hlaterHolds⟩ :=
        ih fun p hp => hadmits p (List.mem_cons_of_mem _ hp)
      obtain ⟨x, hx, here, hhere, hrespects, hholds⟩ := hadmits part List.mem_cons_self
      obtain ⟨b, hinside, houtside⟩ :=
        Assignment.exists_pieced (· ∈ part.joins.joins.map (·.target)) here later
      have hownTarget : ∀ m : M, Source.own m ∉ part.joins.joins.map (·.target) := by
        intro m hmem
        obtain ⟨⟨path, hpath⟩, -⟩ := hfirst.target_role hmem
        cases hpath
      have hownLater : ∀ m : M, Source.own m ∉ (joinsOf parts).map (·.target) := by
        intro m hmem
        obtain ⟨n, path, -, hpath⟩ := hrest.target_role hmem
        cases hpath
      -- On its own sources the new assignment is that of the part, on all others that of the rest.
      have hfirstSources : ∀ s, s = .own part.joins.model ∨ s ∈ part.joins.joins.map (·.target) →
          b s = here s := by
        rintro s (rfl | hs)
        · rw [houtside _ (hownTarget _), hlater _ (hownLater _), hx, hhere]
        · exact hinside s hs
      have hrestSources : ∀ s, s ∈ (entities.map fun d => .own d.entity) ∨
          s ∈ (joinsOf parts).map (·.target) → b s = later s := by
        rintro s (hs | hs)
        · obtain ⟨e, -, rfl⟩ := List.mem_map.1 hs
          exact houtside _ (hownTarget _)
        · exact houtside s fun hmem => Runs.disjoint hfirst hrest hmem hs
      refine ⟨b, fun s hs => ?_, ?_, fun f hf => ?_⟩
      · rw [joinsOf, List.flatMap_cons, List.map_append, List.mem_append, not_or] at hs
        rw [houtside s hs.1, hlater s hs.2]
      · intro j hj
        rw [joinsOf, List.flatMap_cons] at hj
        rcases List.mem_append.1 hj with hj | hj
        · refine hrespects.congr hfirst.sound.linked (fun s hs => hfirstSources s ?_) j hj
          exact hs.imp_left List.mem_singleton.1
        · exact hlaterRespects.congr hrest.linked hrestSources j hj
      · rw [List.flatMap_cons] at hf
        rcases List.mem_append.1 hf with hf | hf
        · rw [← hholds f hf]
          exact Filter.holds_congr fun s hs => hfirstSources s (hfirst.source_mem f hf s hs)
        · rw [← hlaterHolds f hf]
          exact Filter.holds_congr fun s hs => hrestSources s (hrest.source_mem hf hs)

end Request

end RowAccess
