import RowAccess.Proofs.AppliedRules
import RowAccess.Sample.Rows
/-!
# Which rows rules keep

Applying rules to a statement on a model returns exactly the rows of the statement for which the
rules, folded from left to right, are satisfied by some choice of related rows. No row is lost or
repeated by the joins, and empty cells are told from all others as the leaves say.
-/

namespace RowAccess

/-- Some choice of rows along the nested trees of the rules makes their fold true. -/
def Rule.SatisfiedBy {M : Type} [DecidableEq M] (S : Schema M) (db : Database M)
    (reflector : Reflector M) (model : M) (rules : List Rule) (x : Row) : Prop :=
  ∃ rows, db.Along S model (fun path => ∃ rule ∈ rules, rule.conditions.NestedAt path) x rows ∧
    Rule.foldTruth (Rule.Satisfied S reflector model rows) rules

namespace JoinSet

variable {M : Type} {S : Schema M} {db : Database M} {joins : JoinSet M} {x : Row}

/-- Conditions on the root alone are admitted whatever is joined. -/
theorem admits_append {own rest : List (Filter M)}
    (hown : ∀ f ∈ own, ∀ s ∈ Layout.filterSources f, s = .own joins.model) :
    joins.Admits db (own ++ rest) x ↔
      (JoinSet.empty joins.model joins.reflector joins.scope).Admits db own x ∧
        joins.Admits db rest x := by
  constructor
  · rintro ⟨a, ha, hrespects, hholds⟩
    refine ⟨⟨a, ha, fun j hj => ?_, fun f hf => hholds f (by simp [hf])⟩,
      a, ha, hrespects, fun f hf => hholds f (by simp [hf])⟩
    simp [JoinSet.joins, JoinSet.empty] at hj
  · rintro ⟨⟨b, hb, -, hown'⟩, a, ha, hrespects, hholds⟩
    refine ⟨a, ha, hrespects, fun f hf => ?_⟩
    rcases List.mem_append.1 hf with hf | hf
    · rw [← hown' f hf]
      apply Filter.holds_congr
      intro s hs
      rw [hown f hf s hs, ha]
      exact hb.symm
    · exact hholds f hf

variable [DecidableEq M] {rules : List Rule} {reflector : Reflector M}

/-- The filter that rules come to admits the rows that satisfy the rules. -/
theorem admits_compile {statement : Select M} {model : M} {f : Filter M}
    (hjoins : statement.joinsFor S model rules reflector = (joins, none))
    (hcompile : Rule.compile S model rules (some joins) reflector = .ok (.filtered f))
    (haccepted : ∀ rule ∈ rules, rule.Accepted S reflector model)
    (hdefined : ∀ rule ∈ rules, rule.allows = false → rule.Defined S reflector model) :
    joins.Admits db [f] x ↔ Rule.SatisfiedBy S db reflector model rules x := by
  have hsound := sound_joinsFor hjoins
  obtain ⟨rfl, -, -⟩ := joinsFor_frame hjoins
  have hnested : (fun path => ∃ rule ∈ rules, rule.conditions.NestedAt path) =
      (· ∈ joins.paths) := by
    funext path
    exact propext (mem_paths_joinsFor hjoins).symm
  rw [Rule.SatisfiedBy, hnested]
  constructor
  · rintro ⟨a, ha, hrespects, hholds⟩
    refine ⟨joins.rowsAlong a, along_rowsAlong hsound ha hrespects, ?_⟩
    exact (Restriction.holds_compile rfl hcompile haccepted hdefined).1 (hholds f (by simp))
  · rintro ⟨rows, halong, hfold⟩
    obtain ⟨a, ha, hrespects, hrows⟩ := exists_rowsAlong hsound halong
    refine ⟨a, ha, hrespects, fun g hg => ?_⟩
    rw [List.mem_singleton.1 hg, Restriction.holds_compile rfl hcompile haccepted hdefined, hrows]
    exact hfold

end JoinSet

namespace Select

/-- A statement on a model alone. -/
theorem onRoot_ofModel {M : Type} {S : Schema M} {model : M} {conditions : List (Filter M)}
    (reflector : Reflector M) (scope : Nat)
    (hconditions : ∀ f ∈ conditions, ∀ s ∈ Layout.filterSources f, s = .own model) :
    OnRoot S { ofModel model with conditions := conditions }
      (JoinSet.empty model reflector scope) where
  selected := rfl
  attached := rfl
  limit := rfl
  sound := .empty model reflector scope
  sources := fun f hf s hs => .inl (hconditions f hf s hs)

variable {M : Type} [DecidableEq M] {S : Schema M} {db : Database M} {model : M}
  {conditions : List (Filter M)} {rules : List Rule} {reflector : Reflector M}

/-- A statement on a model that rules were applied to. -/
theorem onRoot_applyRules {distinct : Bool} {applied : Select M}
    (hconditions : ∀ f ∈ conditions, ∀ s ∈ Layout.filterSources f, s = .own model)
    (happlied : applyRules S { ofModel model with conditions := conditions } model rules reflector
      distinct = .ok applied) :
    ∃ joins restriction,
      joinsFor S { ofModel model with conditions := conditions } model rules reflector =
        (joins, none) ∧
      Rule.compile S model rules (some joins) reflector = .ok restriction ∧
      OnRoot S applied joins ∧ joins.model = model ∧
      applied.conditions = conditions ++ restriction.filter?.toList ∧
      applied.distinct = distinct := by
  obtain ⟨joins, restriction, hjoins, hcompile, rfl⟩ := applyRules_eq_ok_iff.1 happlied
  have hsound := JoinSet.sound_joinsFor hjoins
  obtain ⟨hmodel, -, -⟩ := JoinSet.joinsFor_frame hjoins
  refine ⟨joins, restriction, hjoins, hcompile, ⟨?_, rfl, rfl, hsound, ?_⟩, hmodel, rfl, ?_⟩
  · simp [ofModel, hmodel]
  · intro f hf s hs
    rcases List.mem_append.1 hf with hf | hf
    · rw [hmodel]
      exact .inl (hconditions f hf s hs)
    · exact Restriction.source_mem_of_compile hsound hmodel hcompile f hf s hs
  · simp [ofModel]

/-- Rules that all have conditions, applied to a statement on a model with conditions of its own:
the result can be run exactly when the database takes the values of all leaves, or when the
statement itself is closed and none of them is handed over. It holds the row of `x` exactly if the
statement itself returns it and `x` satisfies the rules. -/
theorem mem_run_applyRules {distinct : Bool} {applied : Select M} {all : List (List (Field M))}
    (hconditions : ∀ f ∈ conditions, ∀ s ∈ Layout.filterSources f, s = .own model)
    (hrules : rules ≠ []) (hconditional : ∀ rule ∈ rules, rule.unconditional = false)
    (hdefined : ∀ rule ∈ rules, rule.allows = false → rule.Defined S reflector model)
    (hkeys : ((db.rows model).map (S.keyCells model)).Nodup)
    (hall : run S db { ofModel model with conditions := conditions } = .ok all)
    (happlied : applyRules S { ofModel model with conditions := conditions } model rules reflector
      distinct = .ok applied) :
    ((∃ rows, applied.run S db = .ok rows) ↔
      (∃ f ∈ conditions, f.isNever = true) ∨ ∀ rule ∈ rules, rule.Accepted S reflector model) ∧
      ∀ rows, applied.run S db = .ok rows →
        (∀ r, r ∈ rows ↔ r ∈ all ∧ ∃ x ∈ db.rows model, S.resultRow model x = r ∧
          Rule.SatisfiedBy S db reflector model rules x) ∧
        (distinct = true → rows.Nodup) := by
  obtain ⟨joins, restriction, hjoins, hcompile, honRoot, hmodel, happliedConditions,
    happliedDistinct⟩ := onRoot_applyRules hconditions happlied
  obtain ⟨f, rfl⟩ := Rule.exists_filtered hcompile hconditional (.inr hrules)
  have hbase := onRoot_ofModel (S := S) joins.reflector joins.scope hconditions
  have htaken := (hbase.run_ok_iff db).1 ⟨all, hall⟩
  have hclosed := Restriction.isClosed_iff hmodel hcompile happliedConditions
  have hvalues := Restriction.checkValues_compile hmodel hcompile
  have hruns : (∃ rows, applied.run S db = .ok rows) ↔
      (∃ f ∈ conditions, f.isNever = true) ∨ ∀ rule ∈ rules, rule.Accepted S reflector model := by
    rw [honRoot.run_ok_iff, Select.Taken, hclosed, ← hvalues, happliedConditions]
    refine or_congr_right' fun hopen => ?_
    have hown := htaken.resolve_left hopen
    simp only [Restriction.filter?, Option.toList_some, List.mem_append, List.mem_singleton]
    constructor
    · exact fun h => h f (.inr rfl)
    · rintro h g (hg | rfl)
      · exact hown g hg
      · exact h
  refine ⟨hruns, fun rows hrows => ⟨fun r => ?_, fun hdistinct => ?_⟩⟩
  · subst hmodel
    have hsplit : ∀ x, joins.Admits db applied.conditions x ↔
        (JoinSet.empty joins.model joins.reflector joins.scope).Admits db conditions x ∧
          Rule.SatisfiedBy S db reflector joins.model rules x := by
      intro x
      rw [happliedConditions, JoinSet.admits_append hconditions]
      refine and_congr_right fun hown => ?_
      -- Some row satisfies the conditions of the statement, so it is not closed.
      obtain ⟨a, -, -, hholds⟩ := hown
      have hopen : ¬ ∃ f ∈ conditions, f.isNever = true := fun h => IsClosed.not_holds
        (s := { ofModel joins.model with conditions := conditions }) h a hholds
      have haccepted := (hruns.1 ⟨rows, hrows⟩).resolve_left hopen
      rw [← JoinSet.admits_compile hjoins hcompile haccepted hdefined]
      rfl
    rw [honRoot.mem_run hrows]
    constructor
    · rintro ⟨x, hx, hadmits, rfl⟩
      obtain ⟨hown, hsatisfied⟩ := (hsplit x).1 hadmits
      exact ⟨(hbase.mem_run hall).2 ⟨x, hx, hown, rfl⟩, x, hx, rfl, hsatisfied⟩
    · rintro ⟨hmem, x, hx, rfl, hsatisfied⟩
      have hown := (hbase.resultRow_mem_run hkeys hall hx).1 hmem
      exact ⟨x, hx, (hsplit x).2 ⟨hown, hsatisfied⟩, rfl⟩
  · refine honRoot.nodup_run ?_ ?_ hrows
    · rw [happliedDistinct, hdistinct]
    · rw [hmodel]
      exact hkeys

open Sample in
theorem mem_run_applyRules_posts :
    let conditions := [.compare .equal ⟨.own .post, column "is_published" .boolean⟩ (.bool true)]
    let rules : List Rule :=
      [⟨.bool true, .plain [(.text "author", .plain [(.text "role", .text "admin")])], ""⟩,
        ⟨.bool false, .plain [(.text "locked", .bool true)], ""⟩]
    ∃ applied all,
      applyRules schema { ofModel .post with conditions := conditions } .post rules {} true =
        .ok applied ∧
      run schema database { ofModel .post with conditions := conditions } = .ok all ∧
      ((∃ rows, applied.run schema database = .ok rows) ↔
        (∃ f ∈ conditions, f.isNever = true) ∨ ∀ rule ∈ rules, rule.Accepted schema {} .post) ∧
      ∀ rows, applied.run schema database = .ok rows →
        (∀ r, r ∈ rows ↔ r ∈ all ∧ ∃ x ∈ database.rows .post, schema.resultRow .post x = r ∧
          Rule.SatisfiedBy schema database {} .post rules x) ∧
        (true = true → rows.Nodup) := by
  intro conditions rules
  have hdefined : ∀ rule ∈ rules, rule.allows = false → rule.Defined schema {} .post := by
    intro rule hrule hdenies
    simp only [rules, List.mem_cons, List.not_mem_nil, or_false] at hrule
    rcases hrule with rfl | rfl
    · cases hdenies
    · intro path key value hleaf
      obtain ⟨rfl, hentry⟩ := (Value.leafAt_flat (by simp [Value.isMapping])).1 hleaf
      obtain ⟨rfl, rfl⟩ := Prod.mk.inj (List.mem_singleton.1 hentry)
      exact ⟨_, ⟨.post, rfl, rfl⟩, Leaf.defined_of_values (by simp [Operand.members])⟩
  refine ⟨_, _, rfl, rfl, ?_⟩
  exact mem_run_applyRules (by simp [conditions, Layout.filterSources]) (by simp [rules])
    (by simp [rules, Rule.unconditional, Value.truthy]) hdefined (by decide) rfl rfl

open Sample in
/-- An undefined value is stored as an empty cell, so a deny rule that compares with it hides the
rows whose cell is empty, although no cell is equal to it. And a value that the database does not
take keeps the statement from running at all. -/
theorem satisfied_row_not_returned :
    (∃ applied rows all x,
      applyRules schema (ofModel .organization) .organization
        [⟨.bool false, .plain [(.text "parent_id", .float .undefined)], ""⟩] {} true =
          .ok applied ∧
      run schema database (ofModel .organization) = .ok all ∧
      applied.run schema database = .ok rows ∧ x ∈ database.rows .organization ∧
      schema.resultRow .organization x ∈ all ∧
      Rule.SatisfiedBy schema database {} .organization
        [⟨.bool false, .plain [(.text "parent_id", .float .undefined)], ""⟩] x ∧
      schema.resultRow .organization x ∉ rows) ∧
    ∃ applied,
      applyRules schema (ofModel .organization) .organization
        [⟨.bool true, .plain [(.text "parent_id", .int (Int.pow 2 63))], ""⟩] {} true =
          .ok applied ∧
      applied.run schema database = .error .integerTooLarge := by
  refine ⟨⟨_, [[.row .organization [.int 2]], [.row .organization [.int 3]]],
    [[.row .organization [.int 1]], [.row .organization [.int 2]], [.row .organization [.int 3]],
      [.row .organization [.int 4]]],
    Row.ofCells ["id", "name", "parent_id"] [.int 1, .text "Acme Corp", .null],
    rfl, rfl, rfl, by simp [database, rows, table], ?_, ?_, ?_⟩, _, rfl, rfl⟩
  · exact List.mem_cons_self
  · have hflat : ∀ entry ∈ [(Value.text "parent_id", Value.float .undefined)],
        entry.2.isMapping = false := by
      simp [Value.isMapping]
    refine ⟨fun path => if path = [] then some _ else none,
      ⟨rfl, ?_, fun path hpath _ => if_neg hpath⟩,
      fun path key value hleaf => ?_⟩
    · rintro path name ⟨rule, hrule, hnested⟩
      obtain rfl := List.mem_singleton.1 hrule
      exact absurd hnested (Value.not_nestedAt_flat hflat _)
    · obtain ⟨rfl, hentry⟩ := (Value.leafAt_flat hflat).1 hleaf
      obtain ⟨rfl, rfl⟩ := Prod.mk.inj (List.mem_singleton.1 hentry)
      refine ⟨_, ⟨.organization, rfl, rfl⟩, ?_⟩
      rintro (⟨-, hmem⟩ | ⟨stored, -, k, -, hequal⟩)
      · simp [Operand.members] at hmem
      · have hunknown : Cell.null.equal k = some true := hequal
        cases hunknown
  · have hresult : schema.resultRow .organization
        (Row.ofCells ["id", "name", "parent_id"] [.int 1, .text "Acme Corp", .null]) =
          [.row .organization [.int 1]] := rfl
    rw [hresult]
    simp

end Select

end RowAccess
