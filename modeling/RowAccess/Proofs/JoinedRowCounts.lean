import Mathlib.Algebra.GroupWithZero.Nat
import RowAccess.Proofs.RootRows
import RowAccess.Proofs.SingleChain
/-!
# How often joins repeat a row

Outer joins keep every row of their root and repeat it once for each combination of related rows.
How often a row is left after the conditions says how often a statement lists it, and the sum over
all rows is what a count counts; dropping repetitions brings the list down to the rows that are left
at all, but not the count.
-/

namespace RowAccess

section FirstOccurrences

variable {α β γ δ : Type} [BEq β] [LawfulBEq β] {key : α → β}

theorem firstOccurrences_skip {seen : List β} {xs ys : List α} (h : ∀ x ∈ xs, key x ∈ seen) :
    firstOccurrences key seen (xs ++ ys) = firstOccurrences key seen ys := by
  induction xs with
  | nil => rfl
  | cons x xs ih =>
      rw [List.forall_mem_cons] at h
      rw [List.cons_append, firstOccurrences, if_pos (by simpa using h.1), ih h.2]

/-- Of blocks that have a single key each, what is left is read off as from their heads alone. -/
theorem map_firstOccurrences_flatMap {f : γ → List α} {g : γ → β} {h : α → δ} {h' : γ → δ}
    {xs : List γ} {seen : List β} (hkey : ∀ x ∈ xs, ∀ a ∈ f x, key a = g x ∧ h a = h' x) :
    (firstOccurrences key seen (xs.flatMap f)).map h =
      (firstOccurrences g seen (xs.filter fun x => decide (0 < (f x).length))).map h' := by
  induction xs generalizing seen with
  | nil => rfl
  | cons x xs ih =>
      rw [List.forall_mem_cons] at hkey
      rw [List.flatMap_cons]
      cases hblock : f x with
      | nil =>
          rw [List.filter_cons_of_neg (by simp [hblock])]
          exact ih hkey.2
      | cons a block =>
          obtain ⟨⟨ha, hha⟩, hrest⟩ := List.forall_mem_cons.1 (hblock ▸ hkey.1)
          rw [List.filter_cons_of_pos (by simp [hblock]), List.cons_append, firstOccurrences,
            firstOccurrences, ha]
          by_cases hseen : g x ∈ seen
          · have hskip : ∀ b ∈ block, key b ∈ seen := fun b hb => (hrest b hb).1 ▸ hseen
            rw [if_pos (by simpa using hseen), if_pos (by simpa using hseen),
              firstOccurrences_skip hskip, ih hkey.2]
          · have hskip : ∀ b ∈ block, key b ∈ g x :: seen := by
              intro b hb
              rw [(hrest b hb).1]
              exact List.mem_cons_self
            rw [if_neg (by simpa using hseen), if_neg (by simpa using hseen),
              firstOccurrences_skip hskip, List.map_cons, List.map_cons, hha, ih hkey.2]

theorem firstOccurrences_of_nodup {seen : List β} {xs : List α} (hnodup : (xs.map key).Nodup)
    (hseen : ∀ x ∈ xs, key x ∉ seen) : firstOccurrences key seen xs = xs := by
  induction xs generalizing seen with
  | nil => rfl
  | cons x xs ih =>
      rw [List.map_cons, List.nodup_cons] at hnodup
      rw [List.forall_mem_cons] at hseen
      rw [firstOccurrences, if_neg (by simpa using hseen.1), ih hnodup.2]
      intro y hy
      rw [List.mem_cons, not_or]
      exact ⟨fun heq => hnodup.1 (heq ▸ List.mem_map_of_mem hy), hseen.2 y hy⟩

end FirstOccurrences

namespace Database

variable {M : Type} (db : Database M)

/-- A join leads every stored row to one related row at most. -/
def ToOne (j : Join M) : Prop :=
  ∀ p ∈ db.rows j.parent.model, (db.related j.relationship p).length ≤ 1

instance (j : Join M) : Decidable (db.ToOne j) :=
  inferInstanceAs (Decidable (∀ p ∈ db.rows j.parent.model,
    (db.related j.relationship p).length ≤ 1))

/-- An assignment has nothing but stored rows. -/
def Stored (a : Assignment M) : Prop := ∀ s row, a s = some row → row ∈ db.rows s.model

variable {db}

theorem related_subset (r : Relationship M) (p : Row) : db.related r p ⊆ db.rows r.target := by
  intro row hrow
  unfold related at hrow
  split at hrow
  · exact (List.mem_filter.1 hrow).1
  · exact (List.mem_filter.1 hrow).1
  · obtain ⟨link, -, hmem⟩ := List.mem_flatMap.1 hrow
    exact (List.mem_filter.1 hmem).1

variable [DecidableEq M] (db)

/-- What joins make of a single row of their root. -/
def joinedRows (root : Source M) (joins : List (Join M)) (x : Row) : List (Assignment M) :=
  db.extendByAll joins (Assignment.set (fun _ => none) root (some x))

theorem assignments_chain (chain : Chain M) :
    db.assignments [chain] =
      (db.rows chain.root.model).flatMap (db.joinedRows chain.root chain.joins) := by
  simp only [assignments, List.foldl_cons, List.foldl_nil, List.flatMap_singleton, extendByChain]
  rfl

theorem extendByAll_append (first second : List (Join M)) (a : Assignment M) :
    db.extendByAll (first ++ second) a =
      (db.extendByAll first a).flatMap (db.extendByAll second) := by
  rw [extendByAll, List.foldl_append, foldl_flatMap_eq]
  rfl

theorem extendByAll_cons (j : Join M) (joins : List (Join M)) (a : Assignment M) :
    db.extendByAll (j :: joins) a = (db.extendBy j a).flatMap (db.extendByAll joins) := by
  rw [← List.singleton_append, extendByAll_append]
  simp [extendByAll]

theorem extendByAll_ne_nil (joins : List (Join M)) (a : Assignment M) :
    db.extendByAll joins a ≠ [] := by
  induction joins generalizing a with
  | nil => simp [extendByAll]
  | cons j joins ih =>
      rw [extendByAll_cons]
      intro hempty
      obtain ⟨b, hb⟩ := List.exists_mem_of_ne_nil _ (db.extendBy_ne_nil j a)
      exact ih b (List.flatMap_eq_nil_iff.1 hempty b hb)

variable {db} {root : Source M} {joins : List (Join M)} {j : Join M} {a b : Assignment M} {x : Row}

theorem root_of_mem_joinedRows (hlinked : Linked [root] joins)
    (ha : a ∈ db.joinedRows root joins x) : a root = some x := by
  rw [((mem_extendByAll hlinked).1 ha).1 root, Assignment.set_same]
  intro hmem
  obtain ⟨j, hj, heq⟩ := List.mem_map.1 hmem
  exact hlinked.target_not_mem hj (by simp [heq])

/-! ## Joins that lead to one row at most -/

theorem stored_root (hx : x ∈ db.rows root.model) :
    db.Stored (Assignment.set (fun _ => none) root (some x)) := by
  intro s row hrow
  by_cases hs : s = root
  · rw [hs, Assignment.set_same] at hrow
    rw [hs, ← Option.some.inj hrow]
    exact hx
  · rw [Assignment.set_other _ _ hs] at hrow
    cases hrow

theorem Stored.extendBy (ha : db.Stored a) (hmodel : j.target.model = j.relationship.target)
    (hb : b ∈ db.extendBy j a) : db.Stored b := by
  obtain ⟨child, hchild, rfl⟩ := mem_extendBy.1 hb
  intro s row hrow
  by_cases hs : s = j.target
  · rw [hs, Assignment.set_same] at hrow
    subst hrow
    obtain ⟨p, -, hmem⟩ := hchild
    rw [hs, hmodel]
    exact related_subset _ _ hmem
  · rw [Assignment.set_other _ _ hs] at hrow
    exact ha s row hrow

theorem Stored.extendByAll (ha : db.Stored a)
    (hmodels : ∀ j ∈ joins, j.target.model = j.relationship.target)
    (hb : b ∈ db.extendByAll joins a) : db.Stored b := by
  induction joins generalizing a with
  | nil =>
      obtain rfl := List.mem_singleton.1 hb
      exact ha
  | cons j joins ih =>
      rw [List.forall_mem_cons] at hmodels
      rw [extendByAll_cons] at hb
      obtain ⟨c, hc, hb⟩ := List.mem_flatMap.1 hb
      exact ih (ha.extendBy hmodels.1 hc) hmodels.2 hb

theorem length_extendBy_of_toOne (ha : db.Stored a) (hone : db.ToOne j) :
    (db.extendBy j a).length = 1 := by
  have hrows : ((a j.parent).toList.flatMap (db.related j.relationship)).length ≤ 1 := by
    cases hparent : a j.parent with
    | none => simp
    | some p => simpa using hone p (ha _ _ hparent)
  unfold Database.extendBy
  split
  · rfl
  · rename_i rows hne
    rw [List.length_map]
    have hpos := List.length_pos_of_ne_nil hne
    omega

/-- Joins that lead every row to one related row at most repeat no row. -/
theorem length_extendByAll_of_toOne
    (hmodels : ∀ j ∈ joins, j.target.model = j.relationship.target)
    (hone : ∀ j ∈ joins, db.ToOne j) (ha : db.Stored a) : (db.extendByAll joins a).length = 1 := by
  induction joins generalizing a with
  | nil => rfl
  | cons j joins ih =>
      rw [List.forall_mem_cons] at hmodels hone
      obtain ⟨b, hb⟩ := List.length_eq_one_iff.1 (length_extendBy_of_toOne ha hone.1)
      have hstored := ha.extendBy hmodels.1 (hb ▸ List.mem_singleton_self b)
      rw [extendByAll_cons, hb, List.flatMap_singleton]
      exact ih hmodels.2 hone.2 hstored

end Database

/-- All cells of a row of a model. -/
def Schema.rowCells {M : Type} (S : Schema M) (model : M) (x : Row) : List Cell :=
  (Selected.columnsOf S (.own model)).map fun c => c.column.cell (some x)

/-! ## Statements on a single chain -/

namespace Select

variable {M : Type}

/-- A statement that reads nothing but a root and what is joined to it. -/
structure OnChain (s : Select M) (root : Source M) : Prop where
  linked : Database.Linked [root] s.joins
  selected : s.selected.filterMap Selected.source? = [root]
  held : ∀ f ∈ s.conditions, ∀ source ∈ Layout.filterSources f,
    source ∈ Chain.sources ⟨root, s.joins⟩

theorem OnRoot.onChain {S : Schema M} {s : Select M} {joins : JoinSet M} (h : s.OnRoot S joins) :
    s.OnChain (.own joins.model) where
  linked := h.linked
  selected := by simp [h.selected, Selected.source?]
  held := by
    intro f hf source hsource
    rw [Chain.sources, List.mem_cons, h.attached]
    exact h.sources f hf source hsource

theorem OnRoot.target_model {S : Schema M} {s : Select M} {joins : JoinSet M}
    (h : s.OnRoot S joins) : ∀ j ∈ s.joins, j.target.model = j.relationship.target := by
  rw [h.attached]
  intro j hj
  obtain ⟨k, -, rfl⟩ := List.mem_map.1 hj
  rfl

variable [DecidableEq M]

/-- The combinations of a row with related rows that satisfy the conditions of a statement. -/
def completions (s : Select M) (db : Database M) (root : Source M) (x : Row) :
    List (Assignment M) :=
  (db.joinedRows root s.joins x).filter fun a => s.conditions.all fun f => f.holds a

/-- How often a row is left when the joins have repeated it and the conditions are checked. -/
def ways (s : Select M) (db : Database M) (root : Source M) (x : Row) : Nat :=
  (s.completions db root x).length

variable {S : Schema M} {db : Database M} {s : Select M} {root : Source M} {joins : JoinSet M}
  {rows : List (List (Field M))}

theorem OnChain.chains_eq (h : s.OnChain root) : Layout.chains s = .ok [⟨root, s.joins⟩] := by
  have hnone : firstOccurrences id (Chain.sources ⟨root, s.joins⟩)
      (s.conditions.flatMap Layout.filterSources) = [] := by
    rw [List.eq_nil_iff_forall_not_mem]
    intro source hsource
    obtain ⟨hmem, hfresh⟩ := mem_of_mem_firstOccurrences hsource
    obtain ⟨f, hf, hread⟩ := List.mem_flatMap.1 hmem
    exact hfresh (h.held f hf source hread)
  rw [Layout.chains_of_linked h.linked h.selected, hnone]
  rfl

theorem satisfying_chain (db : Database M) (s : Select M) (root : Source M) :
    s.satisfying db [⟨root, s.joins⟩] =
      (db.rows root.model).flatMap (s.completions db root) := by
  rw [satisfying, Database.assignments_chain, List.filter_flatMap]
  rfl

theorem OnChain.run_eq_ok_iff (h : s.OnChain root) (hlimit : s.limit = none) :
    s.run S db = .ok rows ↔ s.Taken ∧
      s.resultOf S ((db.rows root.model).flatMap (s.completions db root)) = rows := by
  simp [Select.run_eq_ok_iff, h.chains_eq, checkLimit_of_none hlimit, satisfying_chain]

theorem OnChain.root_of_mem (h : s.OnChain root) {a : Assignment M} {x : Row}
    (ha : a ∈ s.completions db root x) : a root = some x :=
  Database.root_of_mem_joinedRows h.linked (List.mem_filter.1 ha).1

/-- Where joins lead to one related row at most, a row is left once or not at all. -/
theorem ways_le_one_of_toOne {x : Row} (hx : x ∈ db.rows root.model)
    (hmodels : ∀ j ∈ s.joins, j.target.model = j.relationship.target)
    (hone : ∀ j ∈ s.joins, db.ToOne j) : s.ways db root x ≤ 1 := by
  refine (List.length_filter_le _ _).trans_eq ?_
  exact Database.length_extendByAll_of_toOne hmodels hone (Database.stored_root hx)

/-- A count of a column that is never empty counts every row as often as it is left. -/
theorem OnChain.run_count (h : s.OnChain root) {c : Column}
    (hselected : s.selected = [.count (some ⟨root, c⟩)]) (hlimit : s.limit = none)
    (hpresent : ∀ x ∈ db.rows root.model, c.cell (some x) ≠ .null)
    (hrows : s.run S db = .ok rows) :
    rows = [[.value (.int ((db.rows root.model).map (s.ways db root)).sum)]] := by
  obtain ⟨-, rfl⟩ := (h.run_eq_ok_iff hlimit).1 hrows
  have hcounted : ((db.rows root.model).flatMap (s.completions db root)).countP
      (fun a => !(a.read ⟨root, c⟩).isNull) = ((db.rows root.model).map (s.ways db root)).sum := by
    have hall : ∀ a ∈ (db.rows root.model).flatMap (s.completions db root),
        (!(a.read ⟨root, c⟩).isNull) = true := by
      intro a ha
      obtain ⟨x, hx, hmem⟩ := List.mem_flatMap.1 ha
      have hcell := hpresent x hx
      rw [a.read_eq, h.root_of_mem hmem, Bool.not_eq_true', Bool.eq_false_iff, Ne,
        Cell.isNull_iff]
      exact hcell
    rw [List.countP_eq_length.2 hall, List.length_flatMap]
    rfl
  have hcounts : s.counts = true := by simp [counts, hselected, Selected.isCount]
  simp only [resultOf, hcounts, if_true, limited, hlimit, fields, hselected, List.map_singleton,
    Selected.field, hcounted]

/-! ## Statements that list a model -/

theorem OnChain.fields_of_mem {model : M} (h : s.OnChain (.own model))
    (hselected : s.selected = [.model model]) {a : Assignment M} {x : Row}
    (ha : a ∈ s.completions db (.own model) x) :
    s.fields S (fun _ => 0) 0 a = S.resultRow model x := by
  rw [fields, hselected, List.map_singleton, Selected.field_model (h.root_of_mem ha),
    Schema.resultRow]

theorem OnRoot.fields_of_mem (h : s.OnRoot S joins) {a : Assignment M} {x : Row}
    (ha : a ∈ s.completions db (.own joins.model) x) :
    s.fields S (fun _ => 0) 0 a = S.resultRow joins.model x :=
  h.onChain.fields_of_mem h.selected ha

/-- Without an order, and with repetitions, a row is listed as often as it is left. -/
theorem OnRoot.run_repeated (h : s.OnRoot S joins) (horder : s.order = [])
    (hdistinct : s.distinct = false) (hrows : s.run S db = .ok rows) :
    rows = (db.rows joins.model).flatMap fun x =>
      List.replicate (s.ways db (.own joins.model) x) (S.resultRow joins.model x) := by
  obtain ⟨-, rfl⟩ := (h.onChain.run_eq_ok_iff h.limit).1 hrows
  simp only [resultOf, h.listsRows.counts, limited, h.limit, ordered, horder, withoutRepetitions,
    hdistinct, List.isEmpty_nil, if_true, Bool.false_eq_true, if_false, List.map_flatMap]
  congr 1
  funext x
  refine List.eq_replicate_iff.2 ⟨List.length_map _, fun r hr => ?_⟩
  obtain ⟨a, ha, rfl⟩ := List.mem_map.1 hr
  exact h.fields_of_mem ha

/-- Without an order or repetitions, the rows that are left are listed once for all that have the
same cells. -/
theorem OnRoot.run_distinct (h : s.OnRoot S joins) (horder : s.order = [])
    (hdistinct : s.distinct = true) (hrows : s.run S db = .ok rows) :
    rows = (firstOccurrences (S.rowCells joins.model) [] ((db.rows joins.model).filter fun x =>
      decide (0 < s.ways db (.own joins.model) x))).map (S.resultRow joins.model) := by
  obtain ⟨-, rfl⟩ := (h.onChain.run_eq_ok_iff h.limit).1 hrows
  simp only [resultOf, h.listsRows.counts, limited, h.limit, ordered, horder, withoutRepetitions,
    hdistinct, List.isEmpty_nil, if_true, Bool.false_eq_true, if_false]
  refine map_firstOccurrences_flatMap fun x _ a ha => ⟨?_, h.fields_of_mem ha⟩
  rw [cells, h.selected, List.flatMap_singleton, Selected.cells_model (h.onChain.root_of_mem ha)]
  rfl

/-- Rows that are told apart by their keys are all listed. -/
theorem OnRoot.run_distinct_of_nodup (h : s.OnRoot S joins) (horder : s.order = [])
    (hdistinct : s.distinct = true)
    (hkeys : ((db.rows joins.model).map (S.keyCells joins.model)).Nodup)
    (hrows : s.run S db = .ok rows) :
    rows = ((db.rows joins.model).filter fun x =>
      decide (0 < s.ways db (.own joins.model) x)).map (S.resultRow joins.model) := by
  have hcells : ((db.rows joins.model).map (S.rowCells joins.model)).Nodup := by
    rw [List.Nodup, List.pairwise_map] at hkeys ⊢
    refine hkeys.imp fun hne heq => hne ?_
    exact List.map_congr_left fun c hc => List.map_inj_left.1 heq c (List.mem_filter.1 hc).1
  rw [h.run_distinct horder hdistinct hrows, firstOccurrences_of_nodup ?_ (by simp)]
  exact hcells.sublist (List.filter_sublist.map _)

end Select

end RowAccess
