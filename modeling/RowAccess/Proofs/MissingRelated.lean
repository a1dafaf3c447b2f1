import RowAccess.Proofs.RowSelection
/-!
# Rows without related rows

What a deny rule about a relationship does to a row that nothing is related to. All leaves of the
rule then meet empty cells, so the row stays accessible exactly if no leaf asks for the empty cell;
a deny rule whose tree holds such a leaf hides the row.
-/

namespace RowAccess

/-- Along a relationship that leads nowhere there is no row, however far the path goes on. -/
theorem Database.Along.rows_eq_none {M : Type} {db : Database M} {S : Schema M} {model : M}
    {nested : JoinPath → Prop} {x : Row} {rows : JoinPath → Option Row}
    (h : db.Along S model nested x rows) {name : String} {r : Relationship M}
    (hr : (S.model model).relationship? name = some r) (hmissing : db.related r x = [])
    (rest : JoinPath) : rows (name :: rest) = none := by
  induction rest using List.reverseRecOn with
  | nil =>
      by_cases hnested : nested [name]
      · obtain ⟨parent, r', hparent, hr', hchosen⟩ := h.related [] name hnested
        obtain rfl : model = parent := Option.some.inj hparent
        obtain rfl := Option.some.inj (hr.symm.trans hr')
        rw [h.root] at hchosen
        cases hchild : rows [name] with
        | none => rfl
        | some child =>
            rw [List.nil_append, hchild] at hchosen
            obtain ⟨p, hp, hmem⟩ := hchosen
            obtain rfl : x = p := Option.some.inj hp
            rw [hmissing] at hmem
            simp at hmem
      · exact h.elsewhere _ (by simp) hnested
  | append_singleton rest last ih =>
      by_cases hnested : nested (name :: rest ++ [last])
      · obtain ⟨parent, r', hparent, hr', hchosen⟩ := h.related (name :: rest) last hnested
        rw [ih] at hchosen
        cases hchild : rows (name :: rest ++ [last]) with
        | none => exact hchild
        | some child =>
            rw [hchild] at hchosen
            obtain ⟨p, hp, -⟩ := hchosen
            cases hp
      · exact h.elsewhere _ (by simp) hnested

/-- A rule about a single relationship of a model. -/
structure Rule.About {M : Type} (S : Schema M) (model : M) (rule : Rule) (r : Relationship M) :
    Prop where
  relationship : (S.model model).relationship? r.name = some r
  conditions : ∃ packing key tree, rule.conditions = .mapping packing [(key, tree)] ∧
    key.text? = some r.name ∧ tree.isMapping = true

/-- A rule on the columns of a model alone. -/
def Rule.OnColumns (rule : Rule) : Prop :=
  ∃ packing entries, rule.conditions = .mapping packing entries ∧
    ∀ entry ∈ entries, entry.2.isMapping = false

namespace Rule

section About

variable {M : Type} {S : Schema M} {model : M} {rule : Rule} {r : Relationship M}

theorem About.leaf_path (h : rule.About S model r) {path : JoinPath} {key value : Value}
    (hleaf : rule.conditions.LeafAt path key value) : ∃ rest, path = r.name :: rest := by
  obtain ⟨packing, outer, tree, hconditions, houter, htree⟩ := h.conditions
  rw [hconditions] at hleaf
  obtain ⟨name, rest, rfl, hname, -⟩ := (Value.leafAt_nested htree).1 hleaf
  obtain rfl := Option.some.inj (houter.symm.trans hname)
  exact ⟨rest, rfl⟩

theorem About.unconditional_eq_false (h : rule.About S model r) : rule.unconditional = false := by
  obtain ⟨packing, key, tree, hconditions, -, -⟩ := h.conditions
  simp [unconditional, hconditions, Value.truthy]

end About

variable {M : Type} [DecidableEq M] {S : Schema M} {db : Database M} {model : M} {rule : Rule}
  {r : Relationship M} {reflector : Reflector M} {joins : JoinSet M} {filter : Filter M}

/-- Without a related row a deny rule about the relationship is true, with values that the database
takes, exactly if none of its leaves asks for the empty cell. -/
theorem holds_of_missing (hsound : joins.Sound S) (hmodel : joins.model = model)
    (hdeny : rule.allows = false) (habout : rule.About S model r)
    (hfilter : rule.filter? S model (some joins) reflector = .ok (some filter)) {x : Row}
    (hmissing : db.related r x = []) {a : Assignment M} (hx : a (.own model) = some x)
    (hrespects : db.Respects joins.joins a) :
    filter.checkValues = .ok () ∧ filter.holds a = true ↔
      rule.AllLeaves S reflector model fun _ leaf => leaf.Accepted ∧ ¬ leaf.AsksForEmpty := by
  subst hmodel
  have halong := JoinSet.along_rowsAlong hsound hx hrespects
  have hempty : rule.AllLeaves S reflector joins.model fun path leaf =>
      ∃ source, joins.sourceFor path = .ok source ∧ a source = none := by
    intro path key value hleaf
    obtain ⟨leaf, hreads, source, hsource⟩ := filter?_sources rfl hfilter path key value hleaf
    obtain ⟨rest, rfl⟩ := habout.leaf_path hleaf
    refine ⟨leaf, hreads, source, hsource, ?_⟩
    rw [← JoinSet.rowsAlong_eq (a := a) hsource]
    exact halong.rows_eq_none habout.relationship hmissing rest
  have hcomparator : rule.comparator = .distinct := by
    simp [comparator, hdeny]
  rw [filter?_iff (P := fun f => f.checkValues = .ok () ∧ f.holds a = true) ?_ rfl hfilter]
  · refine allLeaves_congr (hempty.imp ?_)
    rintro path leaf ⟨source, hsource, hnone⟩
    rw [hsource, hcomparator]
    simp only [Except.ok.injEq, exists_eq_left', Leaf.checkValues_filter]
    refine and_congr_right fun haccepted => Leaf.holds_distinct_of_empty haccepted ?_
    rw [hnone]
    rfl
  · intro left right
    rw [Filter.checkValues_both, Filter.holds_both, Bool.and_eq_true, and_and_and_comm]

/-! ## Rules on columns -/

theorem OnColumns.joinPaths_eq (h : rule.OnColumns) : rule.conditions.joinPaths = [] := by
  obtain ⟨packing, entries, hconditions, hflat⟩ := h
  rw [hconditions, Value.joinPaths]
  apply List.eq_nil_iff_forall_not_mem.2
  intro keys hkeys
  obtain ⟨key, value, rest, hentry, hmapping, -, -⟩ := Value.mem_joinPathsOfEntries.1 hkeys
  rw [hflat _ hentry] at hmapping
  cases hmapping

theorem comparisons_flat {comparator : Comparator} {entries : List (Value × Value)}
    (hflat : ∀ entry ∈ entries, entry.2.isMapping = false) {p q : Position M}
    (hmodel : p.model = q.model) (hsource : p.source = q.source)
    (hreflector : p.reflector = q.reflector) :
    Position.comparisons S comparator p entries = Position.comparisons S comparator q entries := by
  induction entries with
  | nil => rfl
  | cons entry entries ih =>
      obtain ⟨key, value⟩ := entry
      have hleaf : p.leaf S comparator key value = q.leaf S comparator key value := by
        rw [Position.leaf_eq, Position.leaf_eq, hmodel, hsource, hreflector]
      have hvalue : value.isMapping = false := hflat _ List.mem_cons_self
      have hcomparison : Position.comparison S comparator p key value =
          Position.comparison S comparator q key value := by
        cases value with
        | mapping packing inner => cases hvalue
        | _ => simp only [Position.comparison, hleaf]
      rw [Position.comparisons, Position.comparisons, hcomparison,
        ih fun entry hentry => hflat entry (List.mem_cons_of_mem _ hentry)]

/-- What is joined does not matter to a rule on columns. -/
theorem OnColumns.filter?_eq (h : rule.OnColumns) (joins joins' : Option (JoinSet M)) :
    rule.filter? S model joins reflector = rule.filter? S model joins' reflector := by
  obtain ⟨packing, entries, hconditions, hflat⟩ := h
  unfold filter?
  rw [hconditions]
  dsimp only
  unfold Position.node
  rw [comparisons_flat (p := .root model joins reflector) (q := .root model joins' reflector) hflat
    rfl rfl rfl]
  rfl

end Rule

/-- A deny rule spares rows without related rows: the database takes all values of its leaves, and
none of them asks for the empty cell. -/
def Rule.SparesMissing {M : Type} [DecidableEq M] (S : Schema M) (reflector : Reflector M)
    (model : M) (rule : Rule) : Prop :=
  rule.AllLeaves S reflector model fun _ leaf => leaf.Accepted ∧ ¬ leaf.AsksForEmpty

namespace Select

/-- A rule on columns needs no joins. -/
theorem joinsFor_cons {M : Type} {S : Schema M} {model : M} {reflector : Reflector M} {first : Rule}
    (hfirst : first.OnColumns) (statement : Select M) (rules : List Rule) :
    joinsFor S statement model (first :: rules) reflector =
      joinsFor S statement model rules reflector := by
  simp [joinsFor, hfirst.joinPaths_eq]

variable {M : Type} [DecidableEq M] {S : Schema M} {db : Database M} {model : M}
  {first deny : Rule} {r : Relationship M} {reflector : Reflector M} {joins : JoinSet M}
  {g d : Filter M} {x : Row}

theorem compile_single {rule : Rule} {restriction : Restriction M}
    (h : Rule.compile S model [rule] (some joins) reflector = .ok restriction) :
    (rule.filter? S model (some joins) reflector = .ok none ∧ restriction = .lifted 0 rule) ∨
      ∃ filter, rule.filter? S model (some joins) reflector = .ok (some filter) ∧
        restriction = .filtered filter := by
  obtain ⟨found, hfound, hrest⟩ := Success.bind_eq_ok_iff.1 h
  cases found with
  | none =>
      cases hrest
      exact .inl ⟨hfound, rfl⟩
  | some filter =>
      cases hrest
      exact .inr ⟨filter, hfound, rfl⟩

theorem compile_lifted_pair (deny : Rule)
    (hfirst : first.filter? S model (some joins) reflector = .ok none) :
    Rule.compile S model [first, deny] (some joins) reflector = .ok (.lifted 0 first) := by
  rw [Rule.compile, Rule.compileFrom, Success.bind_ok hfirst]

theorem compile_deny_pair (hfirst : first.filter? S model (some joins) reflector = .ok (some g))
    (hdeny : deny.allows = false)
    (hfilter : deny.filter? S model (some joins) reflector = .ok (some d)) :
    Rule.compile S model [first, deny] (some joins) reflector = .ok (.filtered (.both g d)) := by
  rw [Rule.compile, Rule.compileFrom, Success.bind_ok hfirst]
  simp only [Rule.compileFrom]
  rw [Success.bind_ok hfilter]
  simp [Rule.extend, hdeny]

theorem source_eq_own (hfirst : first.OnColumns)
    (hg : first.filter? S model (some joins) reflector = .ok (some g)) :
    ∀ s ∈ Layout.filterSources g, s = .own model := by
  intro s hs
  rw [hfirst.filter?_eq _ (some (JoinSet.empty model reflector 0))] at hg
  have hmodel : (JoinSet.empty model reflector 0).model = model := rfl
  obtain ⟨path, hpath⟩ := Rule.sources_filter? hmodel hg s hs
  rw [JoinSet.sourceFor_eq_ok_iff (JoinSet.Sound.empty (S := S) model reflector 0)] at hpath
  have hroot : path = [] ∧ s = .own model := by simpa [JoinSet.empty] using hpath
  exact hroot.2

/-- Without a related row the filter of a deny rule about the relationship admits a row, with
values that the database takes, exactly if the rule spares such rows. -/
theorem admits_deny_iff (hsound : joins.Sound S) (hdeny : deny.allows = false)
    (habout : deny.About S joins.model r)
    (hfilter : deny.filter? S joins.model (some joins) reflector = .ok (some d))
    (hmissing : db.related r x = []) :
    d.checkValues = .ok () ∧ joins.Admits db [d] x ↔
      deny.SparesMissing S reflector joins.model := by
  constructor
  · rintro ⟨hvalues, a, hx, hrespects, hholds⟩
    exact (Rule.holds_of_missing hsound rfl hdeny habout hfilter hmissing hx hrespects).1
      ⟨hvalues, hholds d (by simp)⟩
  · intro hspares
    obtain ⟨a, hx, hrespects⟩ := hsound.exists_completion db x
    obtain ⟨hvalues, hholds⟩ := (Rule.holds_of_missing hsound rfl hdeny habout hfilter hmissing hx
      hrespects).2 hspares
    exact ⟨hvalues, a, hx, hrespects, by simpa using hholds⟩

/-- A statement that rules were applied to returns a row exactly if the database takes the values of
what they compile to, and the row is admitted. -/
theorem returned_iff {rules : List Rule} {distinct : Bool} {applied : Select M}
    {restriction : Restriction M}
    (happlied : applyRules S (ofModel model) model rules reflector distinct = .ok applied)
    (hjoins : joinsFor S (ofModel model) model rules reflector = (joins, none))
    (hcompile : Rule.compile S model rules (some joins) reflector = .ok restriction)
    (hkeys : ((db.rows model).map (S.keyCells model)).Nodup) (hx : x ∈ db.rows model) :
    (∃ rows, applied.run S db = .ok rows ∧ S.resultRow model x ∈ rows) ↔
      (∀ f ∈ restriction.filter?.toList, f.checkValues = .ok ()) ∧
        joins.Admits db restriction.filter?.toList x := by
  obtain ⟨joins', restriction', hjoins', hcompile', hroot, hmodel, hconditions, -⟩ :=
    onRoot_applyRules (by simp) happlied
  obtain ⟨rfl, -⟩ := Prod.mk.inj (hjoins.symm.trans hjoins')
  obtain rfl := Except.ok.inj (hcompile.symm.trans hcompile')
  subst hmodel
  rw [List.nil_append] at hconditions
  rw [← Restriction.taken_iff rfl hcompile hconditions, ← hconditions, ← hroot.run_ok_iff db]
  constructor
  · rintro ⟨rows, hrows, hmem⟩
    exact ⟨⟨rows, hrows⟩, (hroot.resultRow_mem_run hkeys hrows hx).1 hmem⟩
  · rintro ⟨⟨rows, hrows⟩, hadmits⟩
    exact ⟨rows, hrows, (hroot.resultRow_mem_run hkeys hrows hx).2 hadmits⟩

/-- What a rule on columns lets through it lets through without any joins. -/
theorem admits_columns {distinct : Bool} {granted : Select M} {all : List (List (Field M))}
    (hfirst : first.OnColumns)
    (hg : first.filter? S model (some joins) reflector = .ok (some g))
    (hgranted : applyRules S (ofModel model) model [first] reflector distinct = .ok granted)
    (hkeys : ((db.rows model).map (S.keyCells model)).Nodup) (hx : x ∈ db.rows model)
    (hall : granted.run S db = .ok all) (hmem : S.resultRow model x ∈ all) :
    g.checkValues = .ok () ∧
      (JoinSet.empty model joins.reflector joins.scope).Admits db [g] x := by
  have halone : joinsFor S (ofModel model) model [first] reflector =
      (JoinSet.empty model reflector 0, none) := by
    simp [joinsFor, hfirst.joinPaths_eq, JoinSet.addAll, ofModel]
  rw [hfirst.filter?_eq _ (some (JoinSet.empty model reflector 0))] at hg
  have hcompile : Rule.compile S model [first] (some (JoinSet.empty model reflector 0)) reflector =
      .ok (.filtered g) := by
    rw [Rule.compile, Rule.compileFrom, Success.bind_ok hg]
    rfl
  obtain ⟨hvalues, a, ha, hrespects, hholds⟩ :=
    (returned_iff hgranted halone hcompile hkeys hx).1 ⟨all, hall, hmem⟩
  exact ⟨hvalues g (by simp [Restriction.filter?]), a, ha, hrespects, hholds⟩

/-- A rule on columns and a deny rule about a relationship, applied together. -/
theorem exists_pair {distinct : Bool} {granted : Select M} {all : List (List (Field M))}
    (hdeny : deny.allows = false) (habout : deny.About S joins.model r)
    (hkeys : ((db.rows joins.model).map (S.keyCells joins.model)).Nodup)
    (hx : x ∈ db.rows joins.model) (hmissing : db.related r x = [])
    (hjoins : joinsFor S (ofModel joins.model) joins.model [deny] reflector = (joins, none))
    (hd : deny.filter? S joins.model (some joins) reflector = .ok (some d))
    (hfirst : first.OnColumns)
    (hgranted : applyRules S (ofModel joins.model) joins.model [first] reflector distinct =
      .ok granted)
    (hall : granted.run S db = .ok all) (hmem : S.resultRow joins.model x ∈ all) :
    ∃ both, applyRules S (ofModel joins.model) joins.model [first, deny] reflector distinct =
        .ok both ∧
      ((∃ rows, both.run S db = .ok rows ∧ S.resultRow joins.model x ∈ rows) ↔
        first.unconditional = true ∨ deny.SparesMissing S reflector joins.model) := by
  have hsound := JoinSet.sound_joinsFor hjoins
  have hpair := (joinsFor_cons hfirst (ofModel joins.model) [deny]).trans hjoins
  have hexists : ∀ {restriction},
      Rule.compile S joins.model [first, deny] (some joins) reflector = .ok restriction →
      ∃ both, applyRules S (ofModel joins.model) joins.model [first, deny] reflector distinct =
        .ok both :=
    fun hcompile => ⟨_, applyRules_eq_ok_iff.2 ⟨joins, _, hpair, hcompile, rfl⟩⟩
  obtain ⟨alone, restriction, -, hcompile, -⟩ := onRoot_applyRules (by simp) hgranted
  obtain ⟨hbare, -⟩ | ⟨g, hg, -⟩ := compile_single hcompile
  · rw [hfirst.filter?_eq _ (some joins)] at hbare
    have hlifted := compile_lifted_pair deny hbare
    obtain ⟨both, hboth⟩ := hexists hlifted
    refine ⟨both, hboth, ?_⟩
    rw [returned_iff hboth hpair hlifted hkeys hx]
    obtain ⟨a, ha, hrespects⟩ := hsound.exists_completion db x
    simp only [Rule.filter?_eq_none hbare, Restriction.filter?, Option.toList_none,
      List.not_mem_nil, false_implies, implies_true, true_and, true_or, iff_true]
    exact ⟨a, ha, hrespects, by simp⟩
  · rw [hfirst.filter?_eq _ (some joins)] at hg
    have hfiltered := compile_deny_pair hg hdeny hd
    obtain ⟨both, hboth⟩ := hexists hfiltered
    refine ⟨both, hboth, ?_⟩
    have hown := source_eq_own hfirst hg
    obtain ⟨hgvalues, hgadmits⟩ := admits_columns hfirst hg hgranted hkeys hx hall hmem
    have hsplit : joins.Admits db [.both g d] x ↔ joins.Admits db ([g] ++ [d]) x := by
      simp [JoinSet.Admits]
    rw [returned_iff hboth hpair hfiltered hkeys hx,
      ← admits_deny_iff hsound hdeny habout hd hmissing]
    simp only [(Rule.filter?_eq_some hg).1, Restriction.filter?, Option.toList_some,
      List.mem_singleton, forall_eq, Filter.checkValues_both, hgvalues, true_and,
      Bool.false_eq_true, false_or]
    rw [hsplit, JoinSet.admits_append (by simpa using hown)]
    exact and_congr_right fun _ => ⟨fun h => h.2, fun h => ⟨hgadmits, h⟩⟩

/-- A deny rule about a relationship that can be applied, and a row that nothing is related to. The
expression of the rule is true on the row, with values that the database takes, exactly if the rule
spares such rows. Behind a rule on columns it can be applied as well, and a row that the other rule
alone returns is returned again, exactly if the deny rule spares such rows or the other rule is
unconditional and lifts it. -/
theorem missing_row_returned_iff {distinct : Bool} {denied : Select M}
    (hdeny : deny.allows = false) (habout : deny.About S model r)
    (hkeys : ((db.rows model).map (S.keyCells model)).Nodup) (hx : x ∈ db.rows model)
    (hmissing : db.related r x = [])
    (hdenied : applyRules S (ofModel model) model [deny] reflector distinct = .ok denied) :
    (∃ joins d, joinsFor S (ofModel model) model [deny] reflector = (joins, none) ∧
      deny.filter? S model (some joins) reflector = .ok (some d) ∧
      ∀ a : Assignment M, a (.own model) = some x → db.Respects joins.joins a →
        (d.checkValues = .ok () ∧ d.holds a = true ↔ deny.SparesMissing S reflector model)) ∧
    ∀ first granted all, first.OnColumns →
      applyRules S (ofModel model) model [first] reflector distinct = .ok granted →
      granted.run S db = .ok all → S.resultRow model x ∈ all →
      ∃ both, applyRules S (ofModel model) model [first, deny] reflector distinct = .ok both ∧
        ((∃ rows, both.run S db = .ok rows ∧ S.resultRow model x ∈ rows) ↔
          first.unconditional = true ∨ deny.SparesMissing S reflector model) := by
  obtain ⟨joins, restriction, hjoins, hcompile, -, hmodel, -, -⟩ :=
    onRoot_applyRules (by simp) hdenied
  have hsound := JoinSet.sound_joinsFor hjoins
  subst hmodel
  obtain ⟨hbare, -⟩ | ⟨d, hd, -⟩ := compile_single hcompile
  · have hconditional := habout.unconditional_eq_false
    rw [Rule.filter?_eq_none hbare] at hconditional
    cases hconditional
  refine ⟨⟨joins, d, hjoins, hd, fun a ha hrespects =>
    Rule.holds_of_missing hsound rfl hdeny habout hd hmissing ha hrespects⟩, ?_⟩
  intro first granted all hfirst hgranted hall hmem
  exact exists_pair hdeny habout hkeys hx hmissing hjoins hd hfirst hgranted hall hmem

open Sample in
/-- The second post has no comments, and a deny rule about comments spares it. -/
theorem missing_row_returned_comments :
    let grant : Rule := ⟨.bool true, .plain [(.text "is_published", .bool false)], ""⟩
    let deny : Rule :=
      ⟨.bool false, .plain [(.text "comments", .plain [(.text "flagged", .bool true)])], ""⟩
    let x := Row.ofCells ["id", "title", "is_published", "status", "locked", "author_id"]
      [.int 2, .text "Draft Post", .int 0, .int 2, .int 1, .int 1]
    ∃ both, applyRules schema (ofModel .post) .post [grant, deny] {} true = .ok both ∧
      ((∃ rows, both.run schema database = .ok rows ∧ schema.resultRow .post x ∈ rows) ↔
        grant.unconditional = true ∨ deny.SparesMissing schema {} .post) := by
  intro grant deny x
  have habout : deny.About schema .post (collection "comments" .comment "post_id") :=
    ⟨rfl, .plain, _, _, rfl, rfl, rfl⟩
  have hx : x ∈ database.rows .post := by
    simp [x, database, rows, table]
  have hall : schema.resultRow .post x ∈
      [[Field.row .post [.int 2]], [.row .post [.int 4]], [.row .post [.int 6]]] :=
    List.mem_cons_self
  exact (missing_row_returned_iff rfl habout (by decide) hx rfl rfl).2 grant _ _
    ⟨.plain, _, rfl, by simp [Value.isMapping]⟩ rfl rfl hall

open Sample in
/-- A leaf that asks for the empty cell hides the rows that nothing is related to: the second post
has no comments, and a deny rule about comments without a body takes it away. -/
theorem missing_row_hidden :
    let grant : Rule :=
      ⟨.bool true, .plain [(.text "is_published", .list [.bool true, .bool false])], ""⟩
    let deny : Rule :=
      ⟨.bool false, .plain [(.text "comments", .plain [(.text "body", .null)])], ""⟩
    ∃ r x granted all both rows,
      deny.allows = false ∧ deny.About schema .post r ∧ x ∈ database.rows .post ∧
      database.related r x = [] ∧
      applyRules schema (ofModel .post) .post [grant] {} true = .ok granted ∧
      granted.run schema database = .ok all ∧ schema.resultRow .post x ∈ all ∧
      applyRules schema (ofModel .post) .post [grant, deny] {} true = .ok both ∧
      both.run schema database = .ok rows ∧ schema.resultRow .post x ∉ rows := by
  intro grant deny
  have hresult : schema.resultRow .post
      (Row.ofCells ["id", "title", "is_published", "status", "locked", "author_id"]
        [.int 2, .text "Draft Post", .int 0, .int 2, .int 1, .int 1]) = [.row .post [.int 2]] := rfl
  refine ⟨collection "comments" .comment "post_id",
    Row.ofCells ["id", "title", "is_published", "status", "locked", "author_id"]
      [.int 2, .text "Draft Post", .int 0, .int 2, .int 1, .int 1], _,
    (List.range 8).map fun n : Nat => [.row .post [.int (n + 1)]], _,
    [[.row .post [.int 1]], [.row .post [.int 3]], [.row .post [.int 5]], [.row .post [.int 6]]],
    rfl, ⟨rfl, .plain, _, _, rfl, rfl, rfl⟩, ?_, rfl, rfl, rfl, ?_, rfl, rfl, ?_⟩
  · simp [database, Sample.rows, table]
  · rw [hresult]
    exact List.mem_map.2 ⟨1, by decide, rfl⟩
  · rw [hresult]
    simp

end Select

end RowAccess
