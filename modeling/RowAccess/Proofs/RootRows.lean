import RowAccess.Proofs.ResultRows
import RowAccess.Proofs.RuleFold
/-!
# Rows of one root

What a statement on a single model returns when the joins of one join set are attached to it. All
its conditions are about one row of the root and what is joined to it, so a row is returned if it
can be completed by rows of the joined models in such a way that all conditions hold.
-/

namespace RowAccess

/-- A filter depends on nothing but the sources it reads. -/
theorem Filter.truth_congr {M : Type} {f : Filter M} {a b : Assignment M}
    (h : ∀ s ∈ Layout.filterSources f, a s = b s) : f.truth a = f.truth b := by
  have hread : ∀ c : ColumnRef M, a c.source = b c.source → a.read c = b.read c := by
    intro c hc
    rw [a.read_eq, b.read_eq, hc]
  induction f with
  | compare comparator c v =>
      have hc := hread c (h _ (by simp [Layout.filterSources]))
      cases comparator <;> simp only [truth, hc]
  | isNull c | isNotNull c | among c values | notAmong c values =>
      have hc := hread c (h _ (by simp [Layout.filterSources]))
      simp only [truth, hc]
  | both left right ihleft ihright | either left right ihleft ihright =>
      have hleft := ihleft fun s hs => h s (by simp [Layout.filterSources, hs])
      have hright := ihright fun s hs => h s (by simp [Layout.filterSources, hs])
      simp only [truth, hleft, hright]
  | never => rfl

theorem Filter.holds_congr {M : Type} {f : Filter M} {a b : Assignment M}
    (h : ∀ s ∈ Layout.filterSources f, a s = b s) : f.holds a = f.holds b := by
  rw [holds, holds, truth_congr h]

namespace Database

variable {M : Type}

theorem Linked.root_mem {root : Source M} {joins : List (Join M)} (h : Linked [root] joins)
    (hjoins : joins ≠ []) : root ∈ joins.map (·.parent) := by
  induction h with
  | nil => exact absurd rfl hjoins
  | @snoc joins j hlinked hparent _ _ ih =>
      rw [List.map_append, List.mem_append]
      by_cases hempty : joins = []
      · subst hempty
        have hroot : j.parent = root := by simpa using hparent
        exact .inr (by simp [hroot])
      · exact .inl (ih hempty)

/-- With a single root no join is captured: the first one starts at the root, which is read from
then on. -/
theorem Linked.uncaptured {root : Source M} {joins : List (Join M)} (h : Linked [root] joins) :
    Layout.Uncaptured joins := by
  induction h with
  | nil => exact Layout.uncaptured_nil
  | @snoc joins j hlinked hparent _ _ ih =>
      refine Layout.uncaptured_snoc.2 ⟨ih, ?_⟩
      rcases hparent with hroot | htarget
      · by_cases hempty : joins = []
        · exact .inr (.inr (by simp [hempty]))
        · rw [List.mem_singleton.1 hroot]
          exact .inl (hlinked.root_mem hempty)
      · exact .inr (.inl htarget)

theorem exists_chosen (db : Database M) (r : Relationship M) (parent : Option Row) :
    ∃ child, db.Chosen r parent child := by
  cases hrows : parent.toList.flatMap (db.related r) with
  | nil => exact ⟨none, chosen_none_iff.2 hrows⟩
  | cons row rest => exact ⟨some row, chosen_some_iff.2 (hrows ▸ List.mem_cons_self)⟩

/-- Rows chosen for some of the joins can be completed to rows for all of them. -/
theorem exists_respects_beside [DecidableEq M] (db : Database M) {roots : List (Source M)}
    {joins kept : List (Join M)} (hlinked : Linked roots joins) (hkept : Linked roots kept)
    (hsame : ∀ j ∈ joins, j.target ∈ kept.map (·.target) → j ∈ kept) {a : Assignment M}
    (ha : db.Respects kept a) :
    ∃ b, (∀ s, s ∉ joins.map (·.target) ∨ s ∈ kept.map (·.target) → b s = a s) ∧
      db.Respects joins b := by
  induction hlinked with
  | nil => exact ⟨a, fun _ _ => rfl, by simp [Respects]⟩
  | @snoc joins j hlinked hparent hroot hfresh ih =>
      obtain ⟨b, hagree, hrespects⟩ := ih fun k hk => hsame k (by simp [hk])
      by_cases hold : j.target ∈ kept.map (·.target)
      · have hj := hsame j (by simp) hold
        have hparentSame : b j.parent = a j.parent := by
          apply hagree
          refine (hkept.parent_mem hj).imp (fun hmem htarget => ?_) id
          obtain ⟨k, hk, heq⟩ := List.mem_map.1 htarget
          exact hlinked.target_not_mem hk (heq ▸ hmem)
        refine ⟨b, fun s hs => hagree s (hs.imp_left fun h hmem => h (by simp [hmem])), ?_⟩
        intro k hk
        rcases List.mem_append.1 hk with hk | hk
        · exact hrespects k hk
        · obtain rfl := List.mem_singleton.1 hk
          rw [hparentSame, hagree _ (.inr hold)]
          exact ha _ hj
      · obtain ⟨child, hchild⟩ := db.exists_chosen j.relationship (b j.parent)
        have hother : ∀ s, s ≠ j.target → b.set j.target child s = b s :=
          fun s hs => Assignment.set_other _ _ hs
        refine ⟨b.set j.target child, fun s hs => ?_, fun k hk => ?_⟩
        · have hne : s ≠ j.target := by
            rintro rfl
            exact hs.elim (fun h => h (by simp)) hold
          rw [hother s hne]
          exact hagree s (hs.imp_left fun h hmem => h (by simp [hmem]))
        · have hroots : ∀ s, s ∈ roots ∨ s ∈ joins.map (·.target) → s ≠ j.target :=
            fun s => ne_of_new hroot hfresh
          rcases List.mem_append.1 hk with hk | hk
          · exact hrespects.congr hlinked (fun s hs => hother s (hroots s hs)) k hk
          · obtain rfl := List.mem_singleton.1 hk
            rw [Assignment.set_same, hother _ (hroots _ hparent)]
            exact hchild

/-- Every row can be completed along joins. -/
theorem exists_respects [DecidableEq M] (db : Database M) {roots : List (Source M)}
    {joins : List (Join M)} (hlinked : Linked roots joins) (a : Assignment M) :
    ∃ b, (∀ s, s ∉ joins.map (·.target) → b s = a s) ∧ db.Respects joins b := by
  obtain ⟨b, hagree, hrespects⟩ :=
    db.exists_respects_beside hlinked .nil (by simp) (a := a) (by simp [Respects])
  exact ⟨b, fun s hs => hagree s (.inl hs), hrespects⟩

end Database

/-! ## Join sets as joins -/

namespace JoinSet

variable {M : Type} {S : Schema M} {joins : JoinSet M}

/-- The sources of a join set: the root's own table and one for every joined path. -/
theorem sourceFor_eq_ok_iff (h : joins.Sound S) {path : JoinPath} {source : Source M} :
    joins.sourceFor path = .ok source ↔ (path = [] ∧ source = .own joins.model) ∨
      ∃ j ∈ joins.joined, j.path = path ∧ source = joins.sourceOf j := by
  unfold sourceFor
  cases path with
  | nil =>
      simp only [List.isEmpty_nil, if_true, Except.ok.injEq, true_and]
      constructor
      · exact fun heq => .inl heq.symm
      · rintro (heq | ⟨j, hj, hpath, -⟩)
        · exact heq.symm
        · exact absurd hpath (h.path_ne_nil (List.mem_map_of_mem hj))
  | cons name rest =>
      have hne : name :: rest ≠ [] := by simp
      simp only [List.isEmpty_cons, Bool.false_eq_true, if_false, hne, false_and, false_or]
      cases hfind : joins.find? (name :: rest) with
      | none =>
          simp only [reduceCtorEq, false_iff, not_exists, not_and]
          intro j hj hpath
          exact absurd (hpath ▸ List.mem_map_of_mem hj) (find?_eq_none_iff.1 hfind)
      | some k =>
          obtain ⟨hk, hkpath⟩ := find?_eq_some hfind
          simp only [Except.ok.injEq]
          constructor
          · rintro rfl
            exact ⟨k, hk, hkpath, rfl⟩
          · rintro ⟨j, hj, hjpath, rfl⟩
            have hsame := List.inj_on_of_nodup_map h.nodup hk hj (hkpath.trans hjpath.symm)
            rw [hsame]

theorem Grown.linked {model : M} {joined : List (Joined M)} (h : Grown S model joined)
    (joins : JoinSet M) :
    Database.Linked [.own model] (joined.map fun j =>
      ⟨joins.parentOf j, j.relationship, joins.sourceOf j⟩) := by
  induction h with
  | nil => exact .nil
  | @snoc joined parents parent r hgrown hparent hr hparents hfresh ih =>
      rw [List.map_append, List.map_singleton]
      refine .snoc ih ?_ ?_ ?_
      · simp only [parentOf, List.dropLast_concat]
        rcases hparents with rfl | hmem
        · obtain rfl : model = parent := Option.some.inj hparent
          exact .inl (by simp)
        · right
          obtain ⟨k, hk, rfl⟩ := List.mem_map.1 hmem
          obtain rfl : k.relationship.target = parent :=
            Option.some.inj ((hgrown.follow_path hk).symm.trans hparent)
          obtain ⟨grandparents, hpath, -, -⟩ := hgrown.resolved hk
          rw [List.map_map, List.mem_map]
          refine ⟨k, hk, ?_⟩
          simp [Function.comp, sourceOf, hpath]
      · simp [sourceOf, Source.own]
      · intro hmem
        rw [List.map_map, List.mem_map] at hmem
        obtain ⟨k, hk, heq⟩ := hmem
        simp only [Function.comp, sourceOf, Source.mk.injEq, Role.joined.injEq] at heq
        exact hfresh (heq.2.2 ▸ List.mem_map_of_mem hk)

theorem Sound.linked (h : joins.Sound S) : Database.Linked [.own joins.model] joins.joins :=
  Grown.linked h joins

/-- Every row of the root can be completed by what is joined to it. -/
theorem Sound.exists_completion [DecidableEq M] (h : joins.Sound S) (db : Database M) (x : Row) :
    ∃ a : Assignment M, a (.own joins.model) = some x ∧ db.Respects joins.joins a := by
  obtain ⟨a, hagree, hrespects⟩ := db.exists_respects h.linked fun _ => some x
  refine ⟨a, hagree _ fun hmem => ?_, hrespects⟩
  obtain ⟨j, hj, heq⟩ := List.mem_map.1 hmem
  exact h.linked.target_not_mem hj (by simp [heq])

theorem targets_eq (joins : JoinSet M) :
    joins.joins.map (·.target) = joins.joined.map joins.sourceOf := by
  simp [JoinSet.joins, Function.comp]

/-- A source of a join set is the root's own table or one that is joined. -/
theorem source_mem (h : joins.Sound S) {path : JoinPath} {source : Source M}
    (hsource : joins.sourceFor path = .ok source) :
    source = .own joins.model ∨ source ∈ joins.joins.map (·.target) := by
  rcases (sourceFor_eq_ok_iff h).1 hsource with ⟨-, rfl⟩ | ⟨j, hj, -, rfl⟩
  · exact .inl rfl
  · right
    rw [targets_eq]
    exact List.mem_map_of_mem hj

end JoinSet

/-- What identifies a row of a model: the cells of its primary key. -/
def Schema.keyCells {M : Type} (S : Schema M) (model : M) (x : Row) : List Cell :=
  (Selected.keyOf S (.own model)).map fun c => c.column.cell (some x)

/-- The result row that stands for a row of a model. -/
def Schema.resultRow {M : Type} (S : Schema M) (model : M) (x : Row) : List (Field M) :=
  [.row model (S.keyCells model x)]

/-- A row of the root can be completed by what is joined to it so that all filters hold. -/
def JoinSet.Admits {M : Type} (joins : JoinSet M) (db : Database M) (filters : List (Filter M))
    (x : Row) : Prop :=
  ∃ a : Assignment M, a (.own joins.model) = some x ∧ db.Respects joins.joins a ∧
    ∀ f ∈ filters, f.holds a = true

/-! ## Statements on one root -/

namespace Selected

variable {M : Type} {S : Schema M} {a : Assignment M} {model : M} {x : Row}

theorem read_of_mem_columnsOf (ha : a (.own model) = some x) {c : ColumnRef M}
    (hc : c ∈ columnsOf S (.own model)) : a.read c = c.column.cell (some x) := by
  obtain ⟨column, -, rfl⟩ := List.mem_map.1 hc
  rw [a.read_eq, ha]

theorem cells_model (ha : a (.own model) = some x) :
    cells S a (.model model) = (columnsOf S (.own model)).map fun c => c.column.cell (some x) :=
  List.map_congr_left fun _ hc => read_of_mem_columnsOf ha hc

theorem field_model (ha : a (.own model) = some x) (counted : ColumnRef M → Nat) (all : Nat) :
    field S a counted all (.model model) = .row model (S.keyCells model x) := by
  rw [field, Schema.keyCells]
  congr 1
  exact List.map_congr_left fun c hc => read_of_mem_columnsOf ha (List.mem_filter.1 hc).1

end Selected

namespace Select

variable {M : Type} {S : Schema M}

/-- A statement that selects the root of a join set, has exactly its joins attached, and whose
conditions read nothing besides. -/
structure OnRoot (S : Schema M) (s : Select M) (joins : JoinSet M) : Prop where
  selected : s.selected = [.model joins.model]
  attached : s.joins = joins.joins
  limit : s.limit = none
  sound : joins.Sound S
  sources : ∀ f ∈ s.conditions, ∀ source ∈ Layout.filterSources f,
    source = .own joins.model ∨ source ∈ joins.joins.map (·.target)

variable {s : Select M} {joins : JoinSet M}

theorem OnRoot.listsRows (h : s.OnRoot S joins) : s.ListsRows :=
  ⟨counts_of_model h.selected, h.limit⟩

theorem OnRoot.linked (h : s.OnRoot S joins) :
    Database.Linked [.own joins.model] s.joins := by
  rw [h.attached]
  exact h.sound.linked

theorem OnRoot.root_not_mem (h : s.OnRoot S joins) :
    Source.own joins.model ∉ s.joins.map (·.target) := by
  intro hmem
  obtain ⟨j, hj, heq⟩ := List.mem_map.1 hmem
  exact h.linked.target_not_mem hj (by simp [heq])

theorem OnRoot.mem_reads (h : s.OnRoot S joins) {source : Source M} (hmem : source ∈ s.reads) :
    source = .own joins.model ∨ source ∈ s.joins.map (·.target) := by
  rcases List.mem_append.1 hmem with hparent | hother
  · obtain ⟨j, hj, rfl⟩ := List.mem_map.1 hparent
    exact (h.linked.parent_mem hj).imp_left List.mem_singleton.1
  · rcases List.mem_append.1 hother with hselected | hcondition
    · rw [h.selected] at hselected
      exact .inl (by simpa [Selected.source?] using hselected)
    · obtain ⟨f, hf, hsource⟩ := List.mem_flatMap.1 hcondition
      rw [h.attached]
      exact h.sources f hf source hsource

theorem OnRoot.root_mem_reads (h : s.OnRoot S joins) : Source.own joins.model ∈ s.reads := by
  simp [reads, h.selected, Selected.source?]

variable {db : Database M}

/-- Nothing but the root and what is joined to it matters to whether a row is admitted. -/
theorem OnRoot.exists_fills (h : s.OnRoot S joins) {x : Row} (hx : x ∈ db.rows joins.model) :
    joins.Admits db s.conditions x ↔ ∃ a, db.Fills s.reads s.joins a ∧
      (∀ f ∈ s.conditions, f.holds a = true) ∧ a (.own joins.model) = some x := by
  constructor
  · rintro ⟨a, ha, hrespects, hholds⟩
    obtain ⟨b, hinside, houtside⟩ := Assignment.exists_pieced
      (fun source => source = .own joins.model ∨ source ∈ s.joins.map (·.target)) a fun _ => none
    refine ⟨b, ⟨?_, fun source hs htarget => ?_, fun source hs htarget => ?_⟩, fun f hf => ?_, ?_⟩
    · rw [h.attached]
      refine hrespects.congr h.sound.linked fun source hs => hinside source ?_
      rw [h.attached]
      exact hs.imp_left List.mem_singleton.1
    · obtain rfl := (h.mem_reads hs).resolve_right htarget
      exact ⟨x, hx, by rw [hinside _ (.inl rfl), ha]⟩
    · refine houtside source (not_or.2 ⟨fun heq => hs ?_, htarget⟩)
      rw [heq]
      exact h.root_mem_reads
    · rw [← hholds f hf]
      refine Filter.holds_congr fun source hs => hinside source ?_
      rw [h.attached]
      exact h.sources f hf source hs
    · rw [hinside _ (.inl rfl), ha]
  · rintro ⟨a, hfills, hholds, ha⟩
    exact ⟨a, ha, h.attached ▸ hfills.respects, hholds⟩

/-- Rows of a model that are told apart by their keys are told apart in results. -/
theorem resultRow_inj {model : M} (hkeys : ((db.rows model).map (S.keyCells model)).Nodup)
    {x y : Row} (hx : x ∈ db.rows model) (hy : y ∈ db.rows model)
    (heq : S.resultRow model x = S.resultRow model y) : x = y := by
  simp only [Schema.resultRow, List.cons.injEq, Field.row.injEq, true_and, and_true] at heq
  exact List.inj_on_of_nodup_map hkeys hx hy heq

/-- A statement that lists a model without repetitions lists no row of the model twice, whatever
its order and its limit. -/
theorem nodup_resultOf {model : M} (hselected : s.selected = [.model model])
    (hdistinct : s.distinct = true) (hkeys : ((db.rows model).map (S.keyCells model)).Nodup)
    {found : List (Assignment M)}
    (hroot : ∀ a ∈ found, ∃ x ∈ db.rows model, a (.own model) = some x) :
    (s.resultOf S found).Nodup := by
  have hcells : ∀ a ∈ found, ∀ b ∈ found,
      s.fields S (fun _ => 0) 0 a = s.fields S (fun _ => 0) 0 b → s.cells S a = s.cells S b := by
    intro a ha b hb heq
    obtain ⟨x, hx, hax⟩ := hroot a ha
    obtain ⟨y, hy, hby⟩ := hroot b hb
    simp only [fields, hselected, List.map_singleton, Selected.field_model hax,
      Selected.field_model hby] at heq
    obtain rfl := resultRow_inj hkeys hx hy heq
    simp only [cells, hselected, List.flatMap_singleton, Selected.cells_model hax,
      Selected.cells_model hby]
  have hnodup : ((firstOccurrences (s.cells S) [] found).map (s.cells S)).Nodup :=
    nodup_map_firstOccurrences [] _
  rw [List.Nodup, List.pairwise_map] at hnodup
  rw [resultOf, counts_of_model hselected, if_neg Bool.false_ne_true, withoutRepetitions,
    if_pos hdistinct]
  refine ((s.limited_sublist _).map _).nodup ?_
  rw [((s.ordered_perm _).map _).nodup_iff, List.Nodup, List.pairwise_map]
  refine hnodup.imp_of_mem fun ha hb hne heq => hne ?_
  exact hcells _ (mem_of_mem_firstOccurrences ha).1 _ (mem_of_mem_firstOccurrences hb).1 heq

variable [DecidableEq M]

theorem OnRoot.run_ok_iff (h : s.OnRoot S joins) (db : Database M) :
    (∃ rows, s.run S db = .ok rows) ↔ s.Taken :=
  exists_run_iff db h.listsRows h.linked (by simp [Source.own]) h.linked.uncaptured

/-- The rows that a statement on one root returns: those that its conditions admit. -/
theorem OnRoot.mem_run (h : s.OnRoot S joins) {rows : List (List (Field M))}
    (hrun : s.run S db = .ok rows) {r : List (Field M)} :
    r ∈ rows ↔ ∃ x ∈ db.rows joins.model, joins.Admits db s.conditions x ∧
      S.resultRow joins.model x = r := by
  obtain ⟨rows', hrows', hmem⟩ := Select.mem_run (S := S) db h.listsRows h.linked
    (by simp [Source.own]) h.linked.uncaptured ((h.run_ok_iff db).1 ⟨rows, hrun⟩)
  obtain rfl := Except.ok.inj (hrun.symm.trans hrows')
  have hfields : ∀ {a x}, a (.own joins.model) = some x →
      s.fields S (fun _ => 0) 0 a = S.resultRow joins.model x := by
    intro a x ha
    rw [fields, h.selected, List.map_singleton, Selected.field_model ha, Schema.resultRow]
  rw [hmem]
  constructor
  · rintro ⟨a, hfills, hholds, rfl⟩
    obtain ⟨x, hx, ha⟩ := hfills.roots _ h.root_mem_reads h.root_not_mem
    exact ⟨x, hx, (h.exists_fills hx).2 ⟨a, hfills, hholds, ha⟩, (hfields ha).symm⟩
  · rintro ⟨x, hx, hadmits, rfl⟩
    obtain ⟨a, hfills, hholds, ha⟩ := (h.exists_fills hx).1 hadmits
    exact ⟨a, hfills, hholds, hfields ha⟩

/-- Under unique keys the result holds the row of `x` only if `x` itself is admitted. -/
theorem OnRoot.resultRow_mem_run (h : s.OnRoot S joins)
    (hkeys : ((db.rows joins.model).map (S.keyCells joins.model)).Nodup)
    {rows : List (List (Field M))} (hrun : s.run S db = .ok rows) {x : Row}
    (hx : x ∈ db.rows joins.model) :
    S.resultRow joins.model x ∈ rows ↔ joins.Admits db s.conditions x := by
  rw [h.mem_run hrun]
  constructor
  · rintro ⟨y, hy, hadmits, heq⟩
    rwa [← resultRow_inj hkeys hy hx heq]
  · intro hadmits
    exact ⟨x, hx, hadmits, rfl⟩

/-- Without repetitions no row of the root is returned twice. -/
theorem OnRoot.nodup_run (h : s.OnRoot S joins) (hdistinct : s.distinct = true)
    (hkeys : ((db.rows joins.model).map (S.keyCells joins.model)).Nodup)
    {rows : List (List (Field M))} (hrun : s.run S db = .ok rows) : rows.Nodup := by
  obtain ⟨chains, hchains, -, -, rfl⟩ := run_eq_ok_iff.1 hrun
  obtain ⟨chains', hchains', hlaid⟩ := Layout.laid_chains h.linked (by simp [Source.own])
    h.linked.uncaptured
  obtain rfl := Except.ok.inj (hchains.symm.trans hchains')
  refine nodup_resultOf h.selected hdistinct hkeys fun a ha => ?_
  exact (hlaid.mem_assignments.1 (List.mem_filter.1 ha).1).roots _ h.root_mem_reads
    h.root_not_mem

end Select

end RowAccess
