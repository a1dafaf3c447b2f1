import RowAccess.Proofs.AppliedRules
import RowAccess.Proofs.JoinHistory
import RowAccess.Proofs.JoinOrder
import RowAccess.Sample.Rows
/-!
# Families of joined rows

The joins of a join set are attached one after the other, but what they yield is a family of rows
for each row of the root: along every joined path a row that is tied to the one before, or none
where nothing is tied to it. How often a family comes up is read off the stored rows alone, so join
sets with the same paths yield the same families, whatever their history.
-/

namespace RowAccess

namespace Database

variable {M : Type} (db : Database M)

/-- How often a relationship ties a row to a parent: once if their columns agree, or once for each
association row that agrees with both. -/
def ties (r : Relationship M) (parent row : Row) : Nat :=
  match r.link with
  | .reference pairs => if agree pairs row parent then 1 else 0
  | .collection pairs => if agree pairs parent row then 1 else 0
  | .association table parents targets =>
    (db.associations table).countP fun link => agree parents parent link && agree targets row link

open Classical in
/-- How often a relationship puts a row, or no row at all, beside what its parent holds: a stored
row as often as it is tied to the parent, and no row once if the parent is missing or nothing is
tied to it. -/
noncomputable def weight (r : Relationship M) : Option Row → Option Row → Nat
  | some p, some row => (db.rows r.target).count row * db.ties r p row
  | some p, none => if ∀ row ∈ db.rows r.target, db.ties r p row = 0 then 1 else 0
  | none, some _ => 0
  | none, none => 1

variable {db} {r : Relationship M}

open Classical in
theorem count_filter_agree {rows : List Row} {p : Row → Bool} {row : Row} :
    (rows.filter p).count row = rows.count row * if p row then 1 else 0 := by
  by_cases hp : p row
  · rw [List.count_filter hp, if_pos hp, Nat.mul_one]
  · rw [if_neg hp, Nat.mul_zero, List.count_eq_zero]
    exact fun hmem => hp (List.mem_filter.1 hmem).2

open Classical in
theorem count_related (p row : Row) :
    (db.related r p).count row = (db.rows r.target).count row * db.ties r p row := by
  unfold related ties
  cases r.link with
  | reference pairs => exact count_filter_agree
  | collection pairs => exact count_filter_agree
  | association table parents targets =>
      dsimp only
      induction db.associations table with
      | nil => simp
      | cons link links ih =>
          rw [List.countP_cons, Nat.mul_add, ← ih]
          by_cases hp : agree parents p link
          · simp [hp, List.count_append, count_filter_agree, Nat.add_comm]
          · simp [hp]

/-- Nothing is related to a parent exactly if no stored row is tied to it. -/
theorem related_eq_nil_iff {p : Row} :
    db.related r p = [] ↔ ∀ row ∈ db.rows r.target, db.ties r p row = 0 := by
  classical
  constructor
  · intro hnone row hrow
    have hcount : (db.related r p).count row = _ := count_related p row
    rw [hnone, List.count_nil, eq_comm, Nat.mul_eq_zero] at hcount
    exact hcount.resolve_left (List.count_pos_iff.2 hrow).ne'
  · intro htied
    rw [List.eq_nil_iff_forall_not_mem]
    intro row hrow
    have hcount := List.count_pos_iff.2 hrow
    rw [count_related, htied row (related_subset r p hrow), Nat.mul_zero] at hcount
    exact absurd hcount (lt_irrefl 0)

open Classical in
theorem count_choices (parent child : Option Row) :
    (db.choices r parent).count child = db.weight r parent child := by
  cases parent with
  | none => cases child <;> simp [choices, weight]
  | some p =>
      have hrows : (some p).toList.flatMap (db.related r) = db.related r p := by simp
      rw [choices, hrows]
      cases child with
      | some row =>
          rw [weight, ← count_related]
          cases db.related r p with
          | nil => simp
          | cons first rest =>
              exact List.count_map_of_injective _ _ (fun _ _ => Option.some.inj) row
      | none =>
          rw [weight]
          cases hrelated : db.related r p with
          | nil => rw [if_pos (related_eq_nil_iff.1 hrelated)]; rfl
          | cons first rest =>
              rw [if_neg (mt related_eq_nil_iff.2 (by simp [hrelated])), List.count_eq_zero]
              simp

end Database

namespace JoinSet

variable {M : Type} {S : Schema M} {db : Database M} {joins joins' : JoinSet M}

theorem Sound.onRoot_attach (h : joins.Sound S) :
    ((Select.ofModel joins.model).attach joins).OnRoot S joins where
  selected := rfl
  attached := rfl
  limit := rfl
  sound := h
  sources := by simp [Select.attach, Select.ofModel]

/-- The sources of a join set are those that stand for its paths. -/
theorem Sound.exists_path (h : joins.Sound S) {s : Source M}
    (hs : s = .own joins.model ∨ s ∈ joins.joins.map (·.target)) :
    ∃ path, joins.sourceFor path = .ok s := by
  rcases hs with rfl | htarget
  · exact ⟨[], rfl⟩
  · rw [targets_eq] at htarget
    obtain ⟨j, hj, rfl⟩ := List.mem_map.1 htarget
    exact ⟨j.path, (sourceFor_eq_ok_iff h).2 (.inr ⟨j, hj, rfl, rfl⟩)⟩

variable [DecidableEq M]

/-- The families of rows that the statement on the root reads once the joins are attached: what
stands along the joined paths in each of its assignments. -/
def families (joins : JoinSet M) (db : Database M) : Except Fault (List (JoinPath → Option Row)) :=
  let statement := (Select.ofModel joins.model).attach joins
  (Layout.chains statement).map fun chains =>
    (statement.satisfying db chains).map joins.rowsAlong

/-- The assignments that the statement on the root reads, row by row of the root. -/
def combinations (joins : JoinSet M) (db : Database M) : List (Assignment M) :=
  (db.rows joins.model).flatMap (db.joinedRows (.own joins.model) joins.joins)

theorem Sound.satisfying_attach (h : joins.Sound S) (db : Database M) :
    ∃ chains, Layout.chains ((Select.ofModel joins.model).attach joins) = .ok chains ∧
      ((Select.ofModel joins.model).attach joins).satisfying db chains =
        joins.combinations db := by
  refine ⟨_, h.onRoot_attach.onChain.chains_eq, ?_⟩
  rw [Select.satisfying_chain]
  exact List.flatMap_congr fun x _ => List.filter_eq_self.2 fun a _ => rfl

theorem Sound.families_eq (h : joins.Sound S) (db : Database M) :
    joins.families db = .ok ((joins.combinations db).map joins.rowsAlong) := by
  obtain ⟨chains, hchains, hsatisfying⟩ := h.satisfying_attach db
  simp only [families, hchains, Except.map, hsatisfying]

/-- What an assignment that is read looks like: a row at the root, at each joined source what its
join may put there, and nothing elsewhere. -/
theorem Sound.mem_combinations (h : joins.Sound S) {a : Assignment M} :
    a ∈ joins.combinations db ↔ (∃ x ∈ db.rows joins.model, a (.own joins.model) = some x) ∧
      db.Respects joins.joins a ∧
      ∀ s, s ≠ .own joins.model → s ∉ joins.joins.map (·.target) → a s = none := by
  simp only [combinations, List.mem_flatMap, Database.joinedRows,
    Database.mem_extendByAll h.linked]
  have hroot : Source.own joins.model ∉ joins.joins.map (·.target) := h.onRoot_attach.root_not_mem
  constructor
  · rintro ⟨x, hx, hagree, hrespects⟩
    refine ⟨⟨x, hx, by rw [hagree _ hroot, Assignment.set_same]⟩, hrespects, fun s hs htarget => ?_⟩
    rw [hagree s htarget, Assignment.set_other _ _ hs]
  · rintro ⟨⟨x, hx, hset⟩, hrespects, hnone⟩
    refine ⟨x, hx, fun s htarget => ?_, hrespects⟩
    by_cases hs : s = .own joins.model
    · rw [hs, hset, Assignment.set_same]
    · rw [hnone s hs htarget, Assignment.set_other _ _ hs]

/-- An assignment that is read is known by what stands along the joined paths. -/
theorem Sound.combinations_inj (h : joins.Sound S) {a b : Assignment M}
    (ha : a ∈ joins.combinations db) (hb : b ∈ joins.combinations db)
    (heq : joins.rowsAlong a = joins.rowsAlong b) : a = b := by
  obtain ⟨-, -, hanone⟩ := h.mem_combinations.1 ha
  obtain ⟨-, -, hbnone⟩ := h.mem_combinations.1 hb
  funext s
  by_cases hs : s = .own joins.model ∨ s ∈ joins.joins.map (·.target)
  · obtain ⟨path, hpath⟩ := h.exists_path hs
    calc a s = joins.rowsAlong a path := (rowsAlong_eq hpath).symm
      _ = joins.rowsAlong b path := by rw [heq]
      _ = b s := rowsAlong_eq hpath
  · rw [not_or] at hs
    rw [hanone s hs.1 hs.2, hbnone s hs.1 hs.2]

/-- What stands along the joined paths is a choice of rows for a row of the root, and every such
choice comes up. -/
theorem Sound.mem_families (h : joins.Sound S) {f : JoinPath → Option Row} :
    f ∈ (joins.combinations db).map joins.rowsAlong ↔
      ∃ x ∈ db.rows joins.model, db.Along S joins.model (· ∈ joins.paths) x f := by
  rw [List.mem_map]
  constructor
  · rintro ⟨a, ha, rfl⟩
    obtain ⟨⟨x, hx, hroot⟩, hrespects, -⟩ := h.mem_combinations.1 ha
    exact ⟨x, hx, along_rowsAlong h hroot hrespects⟩
  · rintro ⟨x, hx, halong⟩
    obtain ⟨a, hroot, hrespects, rfl⟩ := exists_rowsAlong h halong
    obtain ⟨b, hinside, houtside⟩ := Assignment.exists_pieced
      (fun s => s = .own joins.model ∨ s ∈ joins.joins.map (·.target)) a fun _ => none
    refine ⟨b, h.mem_combinations.2 ⟨⟨x, hx, ?_⟩, ?_, fun s hs htarget => ?_⟩, ?_⟩
    · rw [hinside _ (.inl rfl), hroot]
    · exact hrespects.congr h.linked fun s hs =>
        hinside s (hs.imp_left List.mem_singleton.1)
    · exact houtside s (not_or.2 ⟨hs, htarget⟩)
    · funext path
      rw [rowsAlong, rowsAlong]
      cases hsource : joins.sourceFor path with
      | error fault => rfl
      | ok source => exact hinside source (source_mem h hsource)

open Classical in
/-- How often a family comes up: as often as its row of the root is stored, times how often each
relationship puts the row along its path beside the one before. -/
theorem Sound.count_families (h : joins.Sound S) {f : JoinPath → Option Row} {x : Row}
    (hf : f ∈ (joins.combinations db).map joins.rowsAlong) (hx : f [] = some x) :
    ((joins.combinations db).map joins.rowsAlong).count f = (db.rows joins.model).count x *
      (joins.joined.map fun j =>
        db.weight j.relationship (f j.path.dropLast) (f j.path)).prod := by
  obtain ⟨a, ha, rfl⟩ := List.mem_map.1 hf
  have hroot : joins.sourceFor [] = .ok (.own joins.model) := rfl
  rw [rowsAlong_eq hroot] at hx
  have hfamily : ((joins.combinations db).map joins.rowsAlong).count (joins.rowsAlong a) =
      (joins.combinations db).count a := by
    rw [List.count, List.countP_map, List.count]
    refine List.countP_congr fun b hb => ?_
    simp only [Function.comp, beq_iff_eq]
    exact ⟨fun heq => h.combinations_inj hb ha heq, fun heq => heq ▸ rfl⟩
  have hunique : ∀ y ∈ db.rows joins.model,
      a ∈ db.joinedRows (.own joins.model) joins.joins y → y = x := by
    intro y _ hmem
    exact Option.some.inj ((Database.root_of_mem_joinedRows h.linked hmem).symm.trans hx)
  obtain ⟨-, hrespects, hnone⟩ := h.mem_combinations.1 ha
  have hagree : ∀ s, s ∉ joins.joins.map (·.target) →
      a s = Assignment.set (fun _ => none) (.own joins.model) (some x) s := by
    intro s htarget
    by_cases hs : s = .own joins.model
    · rw [hs, hx, Assignment.set_same]
    · rw [hnone s hs htarget, Assignment.set_other _ _ hs]
  rw [hfamily, combinations, count_flatMap_of_unique hunique, Database.joinedRows,
    Database.count_extendByAll h.linked, if_pos hagree, JoinSet.joins, List.map_map]
  congr 2
  refine List.map_congr_left fun j hj => ?_
  obtain ⟨parents, hpath, -, -⟩ := h.resolved hj
  have hparents : j.path.dropLast = parents := by rw [hpath, List.dropLast_concat]
  have hsource : joins.sourceFor j.path = .ok (joins.sourceOf j) :=
    (sourceFor_eq_ok_iff h).2 (.inr ⟨j, hj, rfl, rfl⟩)
  rw [hparents, rowsAlong_eq (sourceFor_parents h hj hpath), rowsAlong_eq hsource,
    ← Database.count_choices]
  rfl

/-- Join sets with the same paths yield the same families, each as often. -/
theorem Sound.combinations_perm (h : joins.Sound S) (h' : joins'.Sound S)
    (hmodel : joins'.model = joins.model)
    (hpaths : ∀ path, path ∈ joins'.paths ↔ path ∈ joins.paths) :
    ((joins'.combinations db).map joins'.rowsAlong).Perm
      ((joins.combinations db).map joins.rowsAlong) := by
  classical
  have hsame : (· ∈ joins'.paths) = (· ∈ joins.paths) := funext fun path => propext (hpaths path)
  have hmem : ∀ f, f ∈ (joins'.combinations db).map joins'.rowsAlong ↔
      f ∈ (joins.combinations db).map joins.rowsAlong := by
    intro f
    rw [h'.mem_families, h.mem_families, hmodel, hsame]
  rw [List.perm_iff_count]
  intro f
  by_cases hf : f ∈ (joins.combinations db).map joins.rowsAlong
  · obtain ⟨x, -, halong⟩ := h.mem_families.1 hf
    have hperm := joined_perm h' h hmodel hpaths
    rw [h'.count_families ((hmem f).2 hf) halong.root, h.count_families hf halong.root, hmodel,
      (hperm.map _).prod_eq]
  · rw [List.count_eq_zero_of_not_mem hf, List.count_eq_zero_of_not_mem (mt (hmem f).1 hf)]

theorem Sound.run_attach (h : joins.Sound S) (db : Database M) :
    ((Select.ofModel joins.model).attach joins).run S db =
      .ok (((joins.combinations db).map joins.rowsAlong).filterMap fun f =>
        (f []).map (S.resultRow joins.model)) := by
  obtain ⟨chains, hchains, hsatisfying⟩ := h.satisfying_attach db
  rw [Select.run_eq_ok_iff]
  refine ⟨chains, hchains, .inr (by simp [Select.attach, Select.ofModel]),
    Select.checkLimit_of_none rfl, ?_⟩
  have hfields : ∀ a ∈ joins.combinations db, (joins.rowsAlong a []).map (S.resultRow joins.model) =
      some (((Select.ofModel joins.model).attach joins).fields S (fun _ => 0) 0 a) := by
    intro a ha
    obtain ⟨⟨x, -, hroot⟩, -, -⟩ := h.mem_combinations.1 ha
    have hx : joins.rowsAlong a [] = some x := hroot
    rw [hx, Option.map_some, Select.fields, Select.attach, Select.ofModel, List.map_singleton,
      Selected.field_model hroot, Schema.resultRow]
  rw [hsatisfying, List.filterMap_map, Function.comp_def, List.filterMap_congr hfields,
    List.filterMap_eq_map']
  rfl

open Classical in
/-- A join set after any sequence of calls, and the statement on its model with its joins attached.
The statement returns the row at the root of every family. No row of the model is missing; its
families are the choices of a row along each joined path, and each of them comes up as often as the
stored rows tie its rows together. Another join set for the model with the same paths yields the
same families, each as often, in whatever order the paths were joined. -/
theorem families_after (S : Schema M) (db : Database M) (model : M) (reflector : Reflector M)
    (scope : Nat) (history : List Call) :
    let joins := (empty model reflector scope).after S history
    ∃ families, joins.families db = .ok families ∧
      ((Select.ofModel model).attach joins).run S db =
        .ok (families.filterMap fun f => (f []).map (S.resultRow model)) ∧
      (∀ x ∈ db.rows model, ∃ f ∈ families, f [] = some x) ∧
      (∀ f, f ∈ families ↔
        ∃ x ∈ db.rows model, db.Along S model (· ∈ joins.paths) x f) ∧
      (∀ f ∈ families, ∀ x, f [] = some x →
        families.count f = (db.rows model).count x * (joins.joined.map fun j =>
          db.weight j.relationship (f j.path.dropLast) (f j.path)).prod) ∧
      ∀ reflector' scope' history',
        let joins' := (empty model reflector' scope').after S history'
        (∀ path, path ∈ joins'.paths ↔ path ∈ joins.paths) →
          ∃ families', joins'.families db = .ok families' ∧ families'.Perm families := by
  intro joins
  have hgrown : ∀ reflector scope history,
      ((empty model reflector scope).after S history).Sound S ∧
        ((empty model reflector scope).after S history).model = model := by
    intro reflector scope history
    refine ⟨(Sound.empty model reflector scope).after history, ?_⟩
    obtain ⟨joined, hframe⟩ := after_frame (S := S) (empty model reflector scope) history
    rw [hframe]
    rfl
  obtain ⟨hsound, hmodel⟩ := hgrown reflector scope history
  refine ⟨_, hsound.families_eq db, ?_, fun x hx => ?_, fun f => ?_, fun f hf x hx => ?_, ?_⟩
  · have hrun := hsound.run_attach db
    rwa [hmodel] at hrun
  · rw [← hmodel] at hx
    obtain ⟨a, hroot, hrespects⟩ := hsound.exists_completion db x
    have halong := along_rowsAlong hsound hroot hrespects
    exact ⟨_, hsound.mem_families.2 ⟨x, hx, halong⟩, halong.root⟩
  · rw [hsound.mem_families, hmodel]
  · rw [hsound.count_families hf hx, hmodel]
  · intro reflector' scope' history' joins' hpaths
    obtain ⟨hsound', hmodel'⟩ := hgrown reflector' scope' history'
    exact ⟨_, hsound'.families_eq db,
      hsound.combinations_perm hsound' (hmodel'.trans hmodel.symm) hpaths⟩

open Sample in
/-- The organization of the author and the tags of a post, joined in either order. -/
theorem families_after_tags :
    let joins := (empty Entity.post .empty 0).after schema
      [.add [.text "author", .text "organization"], .add [.text "tags"]]
    let joins' := (empty Entity.post .empty 0).after schema
      [.addAll [[.text "tags"], [.text "author"]], .add [.text "author", .text "organization"]]
    joins.paths = [["author"], ["author", "organization"], ["tags"]] ∧
      joins'.paths = [["tags"], ["author"], ["author", "organization"]] ∧
      (∀ path, path ∈ joins'.paths ↔ path ∈ joins.paths) ∧
      ∃ families families', joins.families database = .ok families ∧
        joins'.families database = .ok families' ∧ families'.Perm families := by
  intro joins joins'
  have hpaths : joins.paths = [["author"], ["author", "organization"], ["tags"]] := rfl
  have hpaths' : joins'.paths = [["tags"], ["author"], ["author", "organization"]] := rfl
  have hsame : ∀ path, path ∈ joins'.paths ↔ path ∈ joins.paths := by
    intro path
    rw [hpaths, hpaths']
    simp only [List.mem_cons, List.not_mem_nil, or_false]
    tauto
  obtain ⟨families, hfamilies, -, -, -, -, horder⟩ := families_after schema database
    Entity.post .empty 0 [.add [.text "author", .text "organization"], .add [.text "tags"]]
  obtain ⟨families', hfamilies', hperm⟩ := horder .empty 0
    [.addAll [[.text "tags"], [.text "author"]], .add [.text "author", .text "organization"]] hsame
  exact ⟨hpaths, hpaths', hsame, families, families', hfamilies, hfamilies', hperm⟩

end JoinSet

end RowAccess
