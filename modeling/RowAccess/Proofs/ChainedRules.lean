import RowAccess.Proofs.AppendedRule
import RowAccess.Proofs.JoinedRowCounts
import RowAccess.Proofs.Scopes
import RowAccess.Sample.Rows
/-!
# Rules applied to a statement again

A statement that rules were applied to can have rules applied to it again. The second call joins
its paths anew, in a scope of its own, even those that the first call has joined already. So related
rows are chosen for each call by itself, and a row is kept if it is kept by both. Within a single
call it is not so, for there two rules that share a path have to be satisfied by the same related
row.
-/

namespace RowAccess

/-! ## Other scopes -/

namespace Restriction

variable {M : Type}

theorem toList_rescope (k : Nat) (restriction : Restriction M) :
    (restriction.rescope k).filter?.toList = restriction.filter?.toList.map (Filter.rescope k) := by
  cases restriction <;> rfl

/-- Back in the scope they were compiled in, rules come to what they did. -/
theorem rescope_rescope [DecidableEq M] {S : Schema M} {model : M} {rules : List Rule}
    {reflector : Reflector M} {joins : JoinSet M} {restriction : Restriction M} (k : Nat)
    (h : Rule.compile S model rules (some joins) reflector = .ok restriction) :
    (restriction.rescope k).rescope joins.scope = restriction := by
  have hthere := Rule.compile_rescope (S := S) k model joins reflector rules
  have hback := Rule.compile_rescope (S := S) joins.scope model (joins.rescope k) reflector rules
  rw [hthere, h] at hback
  exact (Except.ok.inj (h.symm.trans hback)).symm

end Restriction

namespace JoinSet

variable {M : Type} {S : Schema M} {db : Database M} {x : Row}

/-- In another scope rules admit the same rows. -/
theorem admits_rescope [DecidableEq M] {model : M} {rules : List Rule} {reflector : Reflector M}
    {joins : JoinSet M} {restriction : Restriction M} (k : Nat)
    (h : Rule.compile S model rules (some joins) reflector = .ok restriction) :
    (joins.rescope k).Admits db (restriction.rescope k).filter?.toList x ↔
      joins.Admits db restriction.filter?.toList x := by
  constructor
  · intro hadmits
    rw [Restriction.toList_rescope] at hadmits
    exact hadmits.of_rescope k
  · intro hadmits
    rw [← Restriction.rescope_rescope k h, Restriction.toList_rescope] at hadmits
    exact Admits.of_rescope joins.scope hadmits

variable {first second : JoinSet M}

theorem targets_disjoint (hscope : first.scope ≠ second.scope) {s : Source M}
    (hs : s ∈ first.joins.map (·.target)) : s ∉ second.joins.map (·.target) := by
  rw [targets_eq] at hs ⊢
  intro hs'
  obtain ⟨j, -, rfl⟩ := List.mem_map.1 hs
  obtain ⟨k, -, heq⟩ := List.mem_map.1 hs'
  simp only [sourceOf, Source.mk.injEq, Role.joined.injEq] at heq
  exact hscope heq.2.1.symm

theorem linked_append (h : first.Sound S) (h' : second.Sound S)
    (hmodel : second.model = first.model) (hscope : first.scope ≠ second.scope) :
    Database.Linked [.own first.model] (first.joins ++ second.joins) :=
  h.linked.append (hmodel ▸ h'.linked) fun _ hj hmem =>
    targets_disjoint hscope hmem (List.mem_map_of_mem hj)

/-- Join sets of different scopes admit together the rows that each of them admits. -/
theorem admits_beside (h : first.Sound S) (h' : second.Sound S)
    (hmodel : second.model = first.model) (hscope : first.scope ≠ second.scope)
    {filters filters' : List (Filter M)}
    (hreads : ∀ f ∈ filters, first.Reads f) (hreads' : ∀ f ∈ filters', second.Reads f) :
    (∃ a : Assignment M, a (.own first.model) = some x ∧
        db.Respects (first.joins ++ second.joins) a ∧
        ∀ f ∈ filters ++ filters', f.holds a = true) ↔
      first.Admits db filters x ∧ second.Admits db filters' x := by
  constructor
  · rintro ⟨a, ha, hrespects, hholds⟩
    exact ⟨⟨a, ha, fun j hj => hrespects j (by simp [hj]), fun f hf => hholds f (by simp [hf])⟩,
      a, hmodel ▸ ha, fun j hj => hrespects j (by simp [hj]), fun f hf => hholds f (by simp [hf])⟩
  · rintro ⟨⟨a, ha, hrespects, hholds⟩, b, hb, hrespects', hholds'⟩
    rw [hmodel] at hb
    obtain ⟨c, hsame, hsame', hc, hc'⟩ := Database.exists_respects_both h.linked
      (hmodel ▸ h'.linked) (fun _ => targets_disjoint hscope) hrespects hrespects'
      (by simp [ha, hb])
    refine ⟨c, (hsame _ (.inl (by simp))).trans ha, fun j hj => ?_, fun f hf => ?_⟩
    · exact (List.mem_append.1 hj).elim (hc j) (hc' j)
    · rcases List.mem_append.1 hf with hf | hf
      · rw [← hholds f hf]
        exact Filter.holds_congr fun s hs =>
          hsame s ((hreads f hf s hs).imp_left fun heq => by simp [heq])
      · rw [← hholds' f hf]
        exact Filter.holds_congr fun s hs =>
          hsame' s ((hreads' f hf s hs).imp_left fun heq => by simp [heq, hmodel])

theorem joinsFor_rescope {statement : Select M} {model : M} {rules : List Rule}
    {reflector : Reflector M} {joins : JoinSet M} (other : Select M)
    (h : statement.joinsFor S model rules reflector = (joins, none)) :
    other.joinsFor S model rules reflector = (joins.rescope other.scopes, none) := by
  have hrescope := addAll_rescope (S := S) other.scopes
    (rules.flatMap fun rule => rule.conditions.joinPaths)
    (JoinSet.empty model reflector statement.scopes)
  unfold Select.joinsFor at h ⊢
  rw [h] at hrescope
  exact hrescope

end JoinSet

/-! ## Statements that list a model -/

namespace Select

variable {M : Type}

/-- Related rows can be chosen for a row, along the joins of a statement, so that all its conditions
hold. -/
def Keeps (s : Select M) (db : Database M) (root : Source M) (x : Row) : Prop :=
  ∃ a : Assignment M, a root = some x ∧ db.Respects s.joins a ∧
    ∀ f ∈ s.conditions, f.holds a = true

/-- A statement that lists the rows of a model and reads nothing but what is joined to them. -/
structure Lists (s : Select M) (model : M) : Prop where
  onChain : s.OnChain (.own model)
  selected : s.selected = [.model model]
  limit : s.limit = none

variable {S : Schema M} {db : Database M} {s : Select M} {root : Source M} {model : M}
  {joins : JoinSet M} {x : Row}

theorem OnRoot.lists (h : s.OnRoot S joins) : s.Lists joins.model :=
  ⟨h.onChain, h.selected, h.limit⟩

theorem Lists.listsRows (h : s.Lists model) : s.ListsRows :=
  ⟨counts_of_model h.selected, h.limit⟩

theorem OnRoot.keeps_iff (h : s.OnRoot S joins) :
    s.Keeps db (.own joins.model) x ↔ joins.Admits db s.conditions x := by
  rw [Keeps, h.attached]
  rfl

/-- A statement with the joins of a join set attached, and conditions that read nothing besides. -/
structure ExtendedBy (S : Schema M) (t s : Select M) (joins : JoinSet M) (added : List (Filter M)) :
    Prop where
  selected : t.selected = s.selected
  limit : t.limit = s.limit
  attached : t.joins = s.joins ++ joins.joins
  conditions : t.conditions = s.conditions ++ added
  sound : joins.Sound S
  reads : ∀ f ∈ added, joins.Reads f

section Extended

variable {t : Select M} {joins' : JoinSet M} {added : List (Filter M)}

theorem ExtendedBy.lists (h : ExtendedBy S t s joins' added) (hroot : s.OnRoot S joins)
    (hmodel : joins'.model = joins.model) (hscope : joins.scope ≠ joins'.scope) :
    t.Lists joins.model := by
  refine ⟨⟨?_, ?_, ?_⟩, h.selected.trans hroot.selected, h.limit.trans hroot.limit⟩
  · rw [h.attached, hroot.attached]
    exact JoinSet.linked_append hroot.sound h.sound hmodel hscope
  · simp [h.selected, hroot.selected, Selected.source?]
  · intro f hf source hsource
    rw [Chain.sources, List.mem_cons, h.attached, List.map_append, List.mem_append, hroot.attached]
    rw [h.conditions, List.mem_append] at hf
    rcases hf with hf | hf
    · exact (hroot.sources f hf source hsource).imp_right .inl
    · exact (h.reads f hf source hsource).imp (hmodel ▸ ·) .inr

/-- Beside joins of another scope, a row is kept if both the statement and what it is extended by
admit it. -/
theorem ExtendedBy.keeps_iff (h : ExtendedBy S t s joins' added) (hroot : s.OnRoot S joins)
    (hmodel : joins'.model = joins.model) (hscope : joins.scope ≠ joins'.scope) :
    t.Keeps db (.own joins.model) x ↔
      s.Keeps db (.own joins.model) x ∧ joins'.Admits db added x := by
  rw [hroot.keeps_iff,
    ← JoinSet.admits_beside hroot.sound h.sound hmodel hscope hroot.sources h.reads,
    Keeps, h.attached, h.conditions, hroot.attached]

end Extended

variable [DecidableEq M] {rows : List (List (Field M))}

/-- A row is kept if some combination with related rows satisfies the conditions. -/
theorem OnChain.keeps_iff (h : s.OnChain root) :
    s.Keeps db root x ↔ ∃ a, a ∈ s.completions db root x := by
  constructor
  · rintro ⟨a, ha, hrespects, hholds⟩
    -- What is joined nowhere is left empty, as it is where the joins start from.
    let b : Assignment M := fun source =>
      if source ∈ Chain.sources ⟨root, s.joins⟩ then a source else none
    have hb : ∀ source ∈ Chain.sources ⟨root, s.joins⟩, b source = a source :=
      fun source hs => if_pos hs
    refine ⟨b, List.mem_filter.2 ⟨(Database.mem_extendByAll h.linked).2 ⟨?_, ?_⟩, ?_⟩⟩
    · intro source hs
      by_cases hroot : source = root
      · rw [hroot, Assignment.set_same, hb _ (by simp [Chain.sources]), ha]
      · rw [Assignment.set_other _ _ hroot]
        exact if_neg (by simp [Chain.sources, hroot, hs])
    · exact hrespects.congr h.linked fun source hs => hb _ (by simpa [Chain.sources] using hs)
    · rw [List.all_eq_true]
      intro f hf
      rw [← hholds f hf]
      exact Filter.holds_congr fun source hs => hb _ (h.held f hf source hs)
  · rintro ⟨a, ha⟩
    obtain ⟨hjoined, hholds⟩ := List.mem_filter.1 ha
    exact ⟨a, h.root_of_mem ha, ((Database.mem_extendByAll h.linked).1 hjoined).2,
      List.all_eq_true.1 hholds⟩

theorem Lists.run_ok_iff (h : s.Lists model) (S : Schema M) (db : Database M) :
    (∃ rows, s.run S db = .ok rows) ↔ s.Taken := by
  constructor
  · rintro ⟨rows, hrows⟩
    exact ((h.onChain.run_eq_ok_iff h.limit).1 hrows).1
  · intro htaken
    exact ⟨_, (h.onChain.run_eq_ok_iff h.limit).2 ⟨htaken, rfl⟩⟩

theorem Lists.mem_run (h : s.Lists model) (hrows : s.run S db = .ok rows) {r : List (Field M)} :
    r ∈ rows ↔ ∃ x ∈ db.rows model, s.Keeps db (.own model) x ∧ S.resultRow model x = r := by
  obtain ⟨-, rfl⟩ := (h.onChain.run_eq_ok_iff h.limit).1 hrows
  rw [mem_resultOf h.listsRows]
  simp only [List.mem_flatMap, h.onChain.keeps_iff]
  constructor
  · rintro ⟨a, ⟨x, hx, ha⟩, rfl⟩
    exact ⟨x, hx, ⟨a, ha⟩, (h.onChain.fields_of_mem h.selected ha).symm⟩
  · rintro ⟨x, hx, ⟨a, ha⟩, rfl⟩
    exact ⟨a, ⟨x, hx, ha⟩, h.onChain.fields_of_mem h.selected ha⟩

/-! ## Statements that keep what two others keep -/

/-- A statement that lists those rows of a model that two others both list. -/
structure Intersects (both one two : Select M) (model : M) : Prop where
  lists : both.Lists model
  taken : both.Taken ↔ one.Taken ∧ two.Taken
  keeps : ∀ db x, both.Keeps db (.own model) x ↔
    one.Keeps db (.own model) x ∧ two.Keeps db (.own model) x

variable {both one two : Select M} {ones twos : List (List (Field M))}

theorem Intersects.run_ok_iff (h : both.Intersects one two model) (hone : one.Lists model)
    (htwo : two.Lists model) (S : Schema M) (db : Database M) :
    (∃ rows, both.run S db = .ok rows) ↔
      (∃ ones, one.run S db = .ok ones) ∧ ∃ twos, two.run S db = .ok twos := by
  rw [h.lists.run_ok_iff, hone.run_ok_iff, htwo.run_ok_iff, h.taken]

/-- Rows that are told apart by their keys are listed if both others list them. -/
theorem Intersects.mem_run (h : both.Intersects one two model) (hone : one.Lists model)
    (htwo : two.Lists model) (hkeys : ((db.rows model).map (S.keyCells model)).Nodup)
    (hrows : both.run S db = .ok rows) (hones : one.run S db = .ok ones)
    (htwos : two.run S db = .ok twos) {r : List (Field M)} :
    r ∈ rows ↔ r ∈ ones ∧ r ∈ twos := by
  rw [h.lists.mem_run hrows, hone.mem_run hones, htwo.mem_run htwos]
  simp only [h.keeps]
  constructor
  · rintro ⟨x, hx, ⟨hkept, hkept'⟩, rfl⟩
    exact ⟨⟨x, hx, hkept, rfl⟩, x, hx, hkept', rfl⟩
  · rintro ⟨⟨x, hx, hkept, rfl⟩, y, hy, hkept', heq⟩
    obtain rfl := resultRow_inj hkeys hy hx heq
    exact ⟨y, hy, ⟨hkept, hkept'⟩, rfl⟩

/-! ## Rules applied one list after the other -/

variable {conditions : List (Filter M)} {first second : List Rule}
  {reflector reflector' : Reflector M} {distinct distinct' : Bool}

theorem lists_applyRules {rules : List Rule} {applied : Select M}
    (hconditions : ∀ f ∈ conditions, ∀ s ∈ Layout.filterSources f, s = .own model)
    (happlied : applyRules S { ofModel model with conditions := conditions } model rules reflector
      distinct = .ok applied) : applied.Lists model := by
  obtain ⟨joins, -, -, -, hroot, rfl, -, -⟩ := onRoot_applyRules hconditions happlied
  exact hroot.lists

/-- What rules join is out of the scopes that are free afterwards. -/
theorem scope_ne_scopes {statement applied : Select M} {rules : List Rule} {joins : JoinSet M}
    (happlied : statement.applyRules S model rules reflector distinct = .ok applied)
    (hjoins : statement.joinsFor S model rules reflector = (joins, none)) :
    joins.scope ≠ applied.scopes := by
  obtain ⟨used, -, hused, -, rfl⟩ := applyRules_eq_ok_iff.1 happlied
  obtain ⟨rfl, -⟩ := Prod.mk.inj (hused.symm.trans hjoins)
  have hfree : used.scope < max statement.scopes (used.scope + 1) := by omega
  exact hfree.ne

/-- Rules that can be applied to one statement can be applied to any other, and extend it by the
same joins and conditions in another scope. -/
theorem exists_extendedBy {statement : Select M} {rules : List Rule} {joins : JoinSet M}
    {restriction : Restriction M} (other : Select M)
    (hjoins : statement.joinsFor S model rules reflector = (joins, none))
    (hcompile : Rule.compile S model rules (some joins) reflector = .ok restriction) :
    ∃ applied, other.applyRules S model rules reflector distinct = .ok applied ∧
      ExtendedBy S applied other (joins.rescope other.scopes)
        (restriction.rescope other.scopes).filter?.toList := by
  have hagain := JoinSet.joinsFor_rescope other hjoins
  have hcompiles : Rule.compile S model rules (some (joins.rescope other.scopes)) reflector =
      .ok (restriction.rescope other.scopes) := by
    rw [Rule.compile_rescope, hcompile]
    rfl
  have hsound := JoinSet.sound_joinsFor hagain
  obtain ⟨hmodel, -, -⟩ := JoinSet.joinsFor_frame hagain
  exact ⟨_, applyRules_eq_ok_iff.2 ⟨_, _, hagain, hcompiles, rfl⟩, rfl, rfl, rfl, rfl, hsound,
    Restriction.source_mem_of_compile hsound hmodel hcompiles⟩

/-- Rules that can be applied to a statement can be applied to it after other rules, and then keep
what both lists keep by themselves. -/
theorem exists_intersects
    (hconditions : ∀ f ∈ conditions, ∀ s ∈ Layout.filterSources f, s = .own model)
    (hone : applyRules S { ofModel model with conditions := conditions } model first reflector
      distinct = .ok one)
    (htwo : applyRules S { ofModel model with conditions := conditions } model second reflector'
      distinct' = .ok two) :
    ∃ both, one.applyRules S model second reflector' distinct' = .ok both ∧
      both.Intersects one two model := by
  obtain ⟨joins, restriction, hjoins, hcompile, hroot, rfl, honeConditions, -⟩ :=
    onRoot_applyRules hconditions hone
  obtain ⟨joins', restriction', hjoins', hcompile', hroot', hmodel', htwoConditions, -⟩ :=
    onRoot_applyRules hconditions htwo
  have hscope : joins.scope ≠ one.scopes := scope_ne_scopes hone hjoins
  obtain ⟨both, hboth, hextended⟩ := exists_extendedBy one hjoins' hcompile'
  refine ⟨both, hboth, hextended.lists hroot hmodel' hscope, ?_, fun db x => ?_⟩
  · -- All three are closed by the conditions that the rules were applied under, or not at all.
    have hclosedOne := Restriction.isClosed_iff rfl hcompile honeConditions
    have hclosedTwo := Restriction.isClosed_iff hmodel' hcompile' htwoConditions
    have hclosed : both.IsClosed ↔ one.IsClosed := by
      refine isClosed_iff_of_append hextended.conditions fun f hf => ?_
      rw [Restriction.toList_rescope] at hf
      obtain ⟨g, hg, rfl⟩ := List.mem_map.1 hf
      rw [Filter.isNever_rescope]
      exact Restriction.isNever_compile hmodel' hcompile' g hg
    simp only [Taken, hclosed, hclosedOne, hclosedTwo, hextended.conditions, honeConditions,
      htwoConditions, Restriction.toList_rescope, List.forall_mem_append, List.forall_mem_map,
      Filter.checkValues_rescope]
    rw [← or_and_left, ← and_and_left, and_assoc]
  · -- The conditions that the rules were applied under are among those of the first statement.
    have hown : one.Keeps db (.own joins.model) x →
        (JoinSet.empty joins.model joins'.reflector joins'.scope).Admits db conditions x := by
      rw [hroot.keeps_iff, honeConditions, JoinSet.admits_append hconditions]
      exact And.left
    have htwoKeeps : two.Keeps db (.own joins.model) x ↔
        (JoinSet.empty joins.model joins'.reflector joins'.scope).Admits db conditions x ∧
          joins'.Admits db restriction'.filter?.toList x := by
      rw [← hmodel', hroot'.keeps_iff, htwoConditions, JoinSet.admits_append]
      rwa [hmodel']
    calc both.Keeps db (.own joins.model) x
      _ ↔ one.Keeps db (.own joins.model) x ∧ (joins'.rescope one.scopes).Admits db
            (restriction'.rescope one.scopes).filter?.toList x :=
          hextended.keeps_iff hroot hmodel' hscope
      _ ↔ one.Keeps db (.own joins.model) x ∧ joins'.Admits db restriction'.filter?.toList x := by
          rw [JoinSet.admits_rescope one.scopes hcompile']
      _ ↔ one.Keeps db (.own joins.model) x ∧ two.Keeps db (.own joins.model) x := by
          rw [htwoKeeps]
          exact and_congr_right fun hkept => (and_iff_right (hown hkept)).symm

/-- Rules applied to a statement on a model after other rules. Whatever lists can be applied to the
statement by themselves can be applied one after the other. The result can be run when both single
results can, and returns the rows that both return. So a list applied twice returns what it returns
when it is applied once. -/
theorem mem_run_applyRules_chained (db : Database M)
    (hconditions : ∀ f ∈ conditions, ∀ s ∈ Layout.filterSources f, s = .own model)
    (hkeys : ((db.rows model).map (S.keyCells model)).Nodup)
    (hone : applyRules S { ofModel model with conditions := conditions } model first reflector
      distinct = .ok one)
    (htwo : applyRules S { ofModel model with conditions := conditions } model second reflector'
      distinct' = .ok two) :
    (∃ both, one.applyRules S model second reflector' distinct' = .ok both ∧
      ((∃ rows, both.run S db = .ok rows) ↔
        (∃ ones, one.run S db = .ok ones) ∧ ∃ twos, two.run S db = .ok twos) ∧
      ∀ rows ones twos, both.run S db = .ok rows → one.run S db = .ok ones →
        two.run S db = .ok twos → ∀ r, r ∈ rows ↔ r ∈ ones ∧ r ∈ twos) ∧
    ∃ twice, one.applyRules S model first reflector distinct = .ok twice ∧
      ((∃ rows, twice.run S db = .ok rows) ↔ ∃ ones, one.run S db = .ok ones) ∧
      ∀ rows ones, twice.run S db = .ok rows → one.run S db = .ok ones →
        ∀ r, r ∈ rows ↔ r ∈ ones := by
  have hlistsOne := lists_applyRules hconditions hone
  have hlistsTwo := lists_applyRules hconditions htwo
  obtain ⟨both, hboth, hintersects⟩ := exists_intersects hconditions hone htwo
  obtain ⟨twice, htwice, hrepeats⟩ := exists_intersects hconditions hone hone
  refine ⟨⟨both, hboth, hintersects.run_ok_iff hlistsOne hlistsTwo S db, ?_⟩, twice, htwice, ?_, ?_⟩
  · intro rows ones twos hrows hones htwos r
    exact hintersects.mem_run hlistsOne hlistsTwo hkeys hrows hones htwos
  · rw [hrepeats.run_ok_iff hlistsOne hlistsOne, and_self_iff]
  · intro rows ones hrows hones r
    rw [hrepeats.mem_run hlistsOne hlistsOne hkeys hrows hones hones, and_self_iff]

open Sample in
/-- The published posts with a nice comment, and of these the ones without an unflagged comment. -/
theorem mem_run_applyRules_chained_posts :
    let conditions := [.compare .equal ⟨.own .post, column "is_published" .boolean⟩ (.bool true)]
    let nice : Rule :=
      ⟨.bool true, .plain [(.text "comments", .plain [(.text "body", .text "nice")])], ""⟩
    let unflagged : Rule :=
      ⟨.bool false, .plain [(.text "comments", .plain [(.text "flagged", .bool false)])], ""⟩
    ∃ one two both rows ones twos,
      applyRules schema { ofModel .post with conditions := conditions } .post [nice] {} true =
        .ok one ∧
      applyRules schema { ofModel .post with conditions := conditions } .post [unflagged] {} true =
        .ok two ∧
      one.applyRules schema .post [unflagged] {} true = .ok both ∧
      both.run schema database = .ok rows ∧ one.run schema database = .ok ones ∧
      two.run schema database = .ok twos ∧ ∀ r, r ∈ rows ↔ r ∈ ones ∧ r ∈ twos := by
  intro conditions nice unflagged
  have hone : applyRules schema { ofModel .post with conditions := conditions } .post [nice] {}
      true = .ok _ := rfl
  have htwo : applyRules schema { ofModel .post with conditions := conditions } .post [unflagged] {}
      true = .ok _ := rfl
  obtain ⟨⟨both, hboth, hruns, hrows⟩, -⟩ := mem_run_applyRules_chained database
    (by simp [conditions, Layout.filterSources]) (by decide) hone htwo
  obtain ⟨rows, hrun⟩ := hruns.2 ⟨⟨_, rfl⟩, _, rfl⟩
  exact ⟨_, _, both, rows, _, _, rfl, rfl, hboth, hrun, rfl, rfl, hrows rows _ _ hrun rfl rfl⟩

open Sample in
/-- The first post is left when the rules are applied one after the other, for it has a nice comment
and one that is flagged. In a single list the same comment has to satisfy both rules, and no post
has one that does. -/
example :
    let nice : Rule :=
      ⟨.bool true, .plain [(.text "comments", .plain [(.text "body", .text "nice")])], ""⟩
    let unflagged : Rule :=
      ⟨.bool false, .plain [(.text "comments", .plain [(.text "flagged", .bool false)])], ""⟩
    ∃ one both merged,
      applyRules schema (ofModel .post) .post [nice] {} true = .ok one ∧
      one.applyRules schema .post [unflagged] {} true = .ok both ∧
      both.run schema database = .ok [[.row .post [.int 1]]] ∧
      applyRules schema (ofModel .post) .post [nice, unflagged] {} true = .ok merged ∧
      merged.run schema database = .ok [] :=
  ⟨_, _, _, rfl, rfl, rfl, rfl, rfl⟩

end Select

end RowAccess
