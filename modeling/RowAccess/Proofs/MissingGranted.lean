import RowAccess.Proofs.MissingRelated
/-!
# Granting rows without related rows

What a grant about a relationship does to a row that nothing is related to. The leaves below the
relationship meet empty cells, however deep they stand, so the row is left out as soon as one of
them does not ask for the absent value. A grant whose leaves there all do asks for no related row.
-/

namespace RowAccess

/-- In a missing row a leaf matches exactly if the absent value is among its values. -/
theorem Leaf.matchesRow_none_iff {leaf : Leaf} :
    leaf.MatchesRow none ↔ Value.null ∈ leaf.operand.members := by
  have hempty : leaf.column.cell none = .null := rfl
  rw [MatchesRow, Matches, hempty]
  simp

namespace Position

variable {M : Type} [DecidableEq M] {S : Schema M} {p : Position M} {comparator : Comparator}
  {entries : List (Value × Value)} {filters : List (Filter M)}

theorem exists_comparison_of_mem (h : comparisons S comparator p entries = .ok filters)
    {key value : Value} (hentry : (key, value) ∈ entries) :
    ∃ filter, comparison S comparator p key value = .ok filter := by
  rw [comparisons_eq_mapM] at h
  obtain ⟨filter, -, hfilter⟩ := Success.exists_of_mapM h hentry
  exact ⟨filter, hfilter⟩

/-- A nested tree that compiles has a leaf. -/
theorem exists_leafAt {key : Value} {packing : Packing} {filter : Filter M}
    (h : comparison S comparator p key (.mapping packing entries) = .ok filter) :
    ∃ path key' value, (Value.mapping packing entries).LeafAt path key' value := by
  obtain ⟨child, inner, -, hinner, hall⟩ := comparison_nested_eq_ok_iff.1 h
  by_contra hnone
  simp only [not_exists] at hnone
  -- What holds of no filter passes through "and": without leaves it would hold of the whole tree.
  have hboth : ∀ left right : Filter M, False ↔ False ∧ False := by simp
  have hleaves : child.Leaves S comparator (.mapping packing entries) fun _ => False :=
    fun path key' value hleaf => absurd hleaf (hnone path key' value)
  have hfilters := (comparisons_iff hboth entries packing child inner hinner).2 hleaves
  exact (conjunction_iff hboth hall).2 hfilters

end Position

namespace Rule

variable {M : Type} [DecidableEq M] {S : Schema M} {db : Database M} {model : M} {rule : Rule}
  {r : Relationship M} {reflector : Reflector M} {x : Row}

/-- A rule that compiles has a leaf below each key that a nested tree stands under. -/
theorem exists_leafAt_of_nested {joins : Option (JoinSet M)} {filter : Filter M} {name : String}
    (h : rule.filter? S model joins reflector = .ok (some filter))
    (hnested : rule.conditions.NestedAt [name]) :
    ∃ path key value, rule.conditions.LeafAt (name :: path) key value := by
  obtain ⟨-, packing, entries, filters, hconditions, hfilters, -⟩ := filter?_eq_some h
  rw [hconditions] at hnested ⊢
  obtain ⟨outer, tree, hentry, hname, hmapping, -⟩ := Value.nestedAt_cons.1 hnested
  obtain ⟨packing', inside, rfl⟩ := Value.isMapping_iff.1 hmapping
  obtain ⟨found, hfound⟩ := Position.exists_comparison_of_mem hfilters hentry
  obtain ⟨path, key, value, hleaf⟩ := Position.exists_leafAt hfound
  exact ⟨path, key, value, Value.leafAt_cons.2 ⟨outer, _, hentry, hname, hleaf⟩⟩

/-- Every leaf of a rule below a relationship of the model is read, and what it is read as has a
property. -/
def LeavesBelow (S : Schema M) (reflector : Reflector M) (model : M) (rule : Rule) (name : String)
    (Q : Leaf → Prop) : Prop :=
  rule.AllLeaves S reflector model fun path leaf => path.head? = some name → Q leaf

/-- Some choice of rows along the nested trees of a rule is matched by all its leaves that do not
stand below a relationship of the model. -/
def SatisfiedBeside (S : Schema M) (db : Database M) (reflector : Reflector M) (model : M)
    (rule : Rule) (name : String) (x : Row) : Prop :=
  ∃ rows, db.Along S model rule.conditions.NestedAt x rows ∧
    rule.AllLeaves S reflector model fun path leaf =>
      path.head? ≠ some name → leaf.MatchesRow (rows path)

/-- Without a related row a grant is satisfied exactly if the leaves below the relationship all ask
for the absent value, and the other leaves match. -/
theorem satisfiedBy_of_missing (hallows : rule.allows = true)
    (hr : (S.model model).relationship? r.name = some r) (hmissing : db.related r x = []) :
    SatisfiedBy S db reflector model [rule] x ↔
      rule.LeavesBelow S reflector model r.name (fun leaf => Value.null ∈ leaf.operand.members) ∧
        rule.SatisfiedBeside S db reflector model r.name x := by
  have hnested : (fun path => ∃ rule' ∈ [rule], rule'.conditions.NestedAt path) =
      rule.conditions.NestedAt := by
    funext path
    simp
  have hempty : ∀ {rows}, db.Along S model rule.conditions.NestedAt x rows →
      ∀ path : JoinPath, path.head? = some r.name → rows path = none := by
    intro rows halong path hpath
    obtain ⟨rest, rfl⟩ := List.head?_eq_some_iff.1 hpath
    exact halong.rows_eq_none hr hmissing rest
  have hsatisfied : ∀ rows, foldTruth (Satisfied S reflector model rows) [rule] ↔
      rule.AllLeaves S reflector model fun path leaf => leaf.MatchesRow (rows path) := by
    intro rows
    simp [foldTruth, Satisfied, hallows]
  rw [SatisfiedBy, hnested]
  simp only [hsatisfied]
  constructor
  · rintro ⟨rows, halong, hleaves⟩
    refine ⟨hleaves.imp fun path leaf hmatches hpath => ?_, rows, halong,
      hleaves.imp fun _ _ hmatches _ => hmatches⟩
    rw [hempty halong path hpath] at hmatches
    exact Leaf.matchesRow_none_iff.1 hmatches
  · rintro ⟨hbelow, rows, halong, hbeside⟩
    refine ⟨rows, halong, (AllLeaves.and hbelow hbeside).imp ?_⟩
    rintro path leaf ⟨hnull, hmatches⟩
    by_cases hpath : path.head? = some r.name
    · rw [hempty halong path hpath]
      exact Leaf.matchesRow_none_iff.2 (hnull hpath)
    · exact hmatches hpath

end Rule

namespace Select

variable {M : Type} [DecidableEq M] {S : Schema M} {db : Database M} {model : M} {rule : Rule}
  {r : Relationship M} {reflector : Reflector M} {x : Row} {distinct : Bool} {applied : Select M}

/-- A grant with a nested tree that can be applied compiles to a filter, for the joins of the
statement. -/
theorem filter?_of_nested {path : JoinPath} (hnested : rule.conditions.NestedAt path)
    (happlied : applyRules S (ofModel model) model [rule] reflector distinct = .ok applied) :
    ∃ joins filter, joinsFor S (ofModel model) model [rule] reflector = (joins, none) ∧
      joins.model = model ∧ rule.filter? S model (some joins) reflector = .ok (some filter) ∧
      Rule.compile S model [rule] (some joins) reflector = .ok (.filtered filter) := by
  obtain ⟨joins, restriction, hjoins, hcompile, -, hmodel, -, -⟩ :=
    onRoot_applyRules (by simp) happlied
  obtain ⟨hbare, -⟩ | ⟨filter, hfilter, rfl⟩ := compile_single hcompile
  · obtain ⟨packing, hconditions⟩ := Rule.conditions_of_filter?_eq_none hbare
    rw [hconditions] at hnested
    exact absurd hnested (Value.not_nestedAt_flat (by simp) path)
  · exact ⟨joins, filter, hjoins, hmodel, hfilter, hcompile⟩

/-- A grant with a nested tree below a relationship, and a row that nothing is related to along it.
There is a leaf below the relationship, and the row is returned exactly if the database takes the
values of all leaves, every leaf below the relationship asks for the absent value, and the other
leaves match for some choice of related rows. -/
theorem missing_row_granted_iff (hallows : rule.allows = true)
    (hr : (S.model model).relationship? r.name = some r)
    (hnested : rule.conditions.NestedAt [r.name])
    (hkeys : ((db.rows model).map (S.keyCells model)).Nodup) (hx : x ∈ db.rows model)
    (hmissing : db.related r x = [])
    (happlied : applyRules S (ofModel model) model [rule] reflector distinct = .ok applied) :
    (∃ path key value, rule.conditions.LeafAt (r.name :: path) key value) ∧
      ((∃ rows, applied.run S db = .ok rows ∧ S.resultRow model x ∈ rows) ↔
        rule.Accepted S reflector model ∧
          rule.LeavesBelow S reflector model r.name
            (fun leaf => Value.null ∈ leaf.operand.members) ∧
          rule.SatisfiedBeside S db reflector model r.name x) := by
  obtain ⟨joins, filter, hjoins, hmodel, hfilter, hcompile⟩ := filter?_of_nested hnested happlied
  refine ⟨Rule.exists_leafAt_of_nested hfilter hnested, ?_⟩
  have hvalues : filter.checkValues = .ok () ↔ rule.Accepted S reflector model := by
    simpa using Restriction.checkValues_compile hmodel hcompile
  rw [returned_iff happlied hjoins hcompile hkeys hx]
  simp only [Restriction.filter?, Option.toList_some, List.mem_singleton, forall_eq, hvalues]
  refine and_congr_right fun haccepted => ?_
  rw [JoinSet.admits_compile hjoins hcompile (by simpa using haccepted) (by simp [hallows])]
  exact Rule.satisfiedBy_of_missing hallows hr hmissing

open Sample in
/-- The second post has no comments, and a grant about flagged comments leaves it out. -/
theorem missing_row_not_granted_comments :
    let rule : Rule :=
      ⟨.bool true, .plain [(.text "comments", .plain [(.text "flagged", .bool true)])], ""⟩
    let r : Relationship Entity := collection "comments" .comment "post_id"
    let x := Row.ofCells ["id", "title", "is_published", "status", "locked", "author_id"]
      [.int 2, .text "Draft Post", .int 0, .int 2, .int 1, .int 1]
    ∃ applied, applyRules schema (ofModel .post) .post [rule] {} true = .ok applied ∧
      rule.allows = true ∧ (schema.model .post).relationship? r.name = some r ∧
      rule.conditions.NestedAt [r.name] ∧
      ((database.rows .post).map (schema.keyCells .post)).Nodup ∧ x ∈ database.rows .post ∧
      database.related r x = [] ∧
      ¬ ∃ rows, applied.run schema database = .ok rows ∧ schema.resultRow .post x ∈ rows := by
  intro rule r x
  have hnested : rule.conditions.NestedAt [r.name] :=
    Value.nestedAt_cons.2 ⟨_, _, List.mem_singleton.2 rfl, rfl, rfl, .inl rfl⟩
  have hkeys : ((database.rows .post).map (schema.keyCells .post)).Nodup := by decide
  have hx : x ∈ database.rows .post := by
    simp [x, database, rows, table]
  have happlies : ∃ applied, applyRules schema (ofModel .post) .post [rule] {} true = .ok applied :=
    ⟨_, rfl⟩
  obtain ⟨applied, happlied⟩ := happlies
  refine ⟨applied, happlied, rfl, rfl, hnested, hkeys, hx, rfl, ?_⟩
  rw [(missing_row_granted_iff (r := r) rfl rfl hnested hkeys hx rfl happlied).2]
  rintro ⟨-, hbelow, -⟩
  have hleaf : rule.conditions.LeafAt [r.name] (.text "flagged") (.bool true) :=
    (Value.leafAt_nested rfl).2 ⟨_, [], rfl, rfl, Value.leafAt_nil.2 ⟨by simp, rfl⟩⟩
  obtain ⟨leaf, hreads, hnull⟩ := hbelow _ _ _ hleaf
  have hflagged : schema.ReadsLeaf {} .post [r.name] (.text "flagged") (.bool true)
      ⟨column "flagged" .boolean, .one (.bool true)⟩ := ⟨.comment, rfl, rfl⟩
  obtain rfl := hreads.unique hflagged
  simpa [Operand.members] using hnull rfl

open Sample in
/-- A grant about comments without a body returns posts that have no comments at all, such as the
second one. -/
theorem missing_row_granted :
    let conditions : Value := .plain [(.text "comments", .plain [(.text "body", .null)])]
    ∃ r x applied rows,
      (schema.model .post).relationship? r.name = some r ∧ conditions.NestedAt [r.name] ∧
      x ∈ database.rows .post ∧ database.related r x = [] ∧
      applyRules schema (ofModel .post) .post [⟨.bool true, conditions, ""⟩] {} true =
        .ok applied ∧
      applied.run schema database = .ok rows ∧ schema.resultRow .post x ∈ rows := by
  intro conditions
  refine ⟨collection "comments" .comment "post_id",
    Row.ofCells ["id", "title", "is_published", "status", "locked", "author_id"]
      [.int 2, .text "Draft Post", .int 0, .int 2, .int 1, .int 1], _,
    [[.row .post [.int 2]], [.row .post [.int 4]], [.row .post [.int 7]], [.row .post [.int 8]]],
    rfl, ?_, ?_, rfl, rfl, rfl, ?_⟩
  · exact Value.nestedAt_cons.2 ⟨_, _, List.mem_singleton.2 rfl, rfl, rfl, .inl rfl⟩
  · simp [database, Sample.rows, table]
  · exact List.mem_cons_self

end Select

end RowAccess
