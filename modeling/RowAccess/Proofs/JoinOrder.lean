import Mathlib.Algebra.BigOperators.Group.List.Basic
import Mathlib.Data.List.Count
import RowAccess.Proofs.JoinedRowCounts
import RowAccess.Proofs.LargerJoinSet
/-!
# Joins in another order

How often a sequence of outer joins yields an assignment is a product with one factor for each
join: how often the join puts what the target holds beside what the parent holds. A product does not
depend on the order of its factors, so joins may be attached in any order that puts parents first.
-/

namespace RowAccess

theorem count_flatMap_of_unique {α β : Type} [DecidableEq α] [DecidableEq β] {f : α → List β}
    {xs : List α} {b : β} {x : α} (h : ∀ y ∈ xs, b ∈ f y → y = x) :
    (xs.flatMap f).count b = xs.count x * (f x).count b := by
  induction xs with
  | nil => simp
  | cons y xs ih =>
      rw [List.forall_mem_cons] at h
      rw [List.flatMap_cons, List.count_append, ih h.2]
      by_cases hy : y = x
      · rw [hy, List.count_cons_self, Nat.succ_mul, Nat.add_comm]
      · rw [List.count_cons_of_ne hy, List.count_eq_zero_of_not_mem fun hb => hy (h.1 hb),
          Nat.zero_add]

namespace Assignment

variable {M : Type} [DecidableEq M]

theorem set_injective (a : Assignment M) (source : Source M) :
    Function.Injective (a.set source) := by
  intro row row' heq
  simpa using congrFun heq source

@[simp] theorem set_self (a : Assignment M) (source : Source M) : a.set source (a source) = a := by
  funext s
  by_cases hs : s = source
  · rw [hs, set_same]
  · rw [set_other _ _ hs]

@[simp] theorem set_set (a : Assignment M) (source : Source M) (row row' : Option Row) :
    (a.set source row).set source row' = a.set source row' := by
  funext s
  by_cases hs : s = source
  · rw [hs, set_same, set_same]
  · rw [set_other _ _ hs, set_other _ _ hs, set_other _ _ hs]

end Assignment

namespace Database

variable {M : Type} (db : Database M)

/-- What an outer join puts beside a parent, as often as it does: the related rows, or once no row
at all. -/
def choices (r : Relationship M) (parent : Option Row) : List (Option Row) :=
  match parent.toList.flatMap (db.related r) with
  | [] => [none]
  | rows => rows.map some

open Classical in
/-- How often a join puts beside its parent what an assignment holds at its target. -/
noncomputable def multiplicity (b : Assignment M) (j : Join M) : Nat :=
  (db.choices j.relationship (b j.parent)).count (b j.target)

variable [DecidableEq M] {db} {roots : List (Source M)} {joins joins' : List (Join M)}
  {a b : Assignment M}

theorem extendBy_eq (j : Join M) (a : Assignment M) :
    db.extendBy j a = (db.choices j.relationship (a j.parent)).map (a.set j.target) := by
  unfold extendBy choices
  cases (a j.parent).toList.flatMap (db.related j.relationship) <;> simp

open Classical in
/-- One join more multiplies by how often it puts beside the parent what the target holds. -/
theorem count_extendByAll_snoc {j : Join M} (hparent : j.parent ≠ j.target)
    (hfresh : j.target ∉ joins.map (·.target)) (hlinked : Linked roots joins) :
    (db.extendByAll (joins ++ [j]) a).count b =
      (db.extendByAll joins a).count (b.set j.target (a j.target)) * db.multiplicity b j := by
  have hunique : ∀ c ∈ db.extendByAll joins a, b ∈ db.extendBy j c →
      c = b.set j.target (a j.target) := by
    intro c hc hb
    obtain ⟨child, -, rfl⟩ := mem_extendBy.1 hb
    rw [← ((mem_extendByAll hlinked).1 hc).1 _ hfresh, Assignment.set_set, Assignment.set_self]
  rw [extendByAll_snoc, count_flatMap_of_unique hunique, extendBy_eq, multiplicity,
    Assignment.set_other _ _ hparent]
  congr 1
  have hcount := List.count_map_of_injective (db.choices j.relationship (b j.parent)) _
    (Assignment.set_injective (b.set j.target (a j.target)) j.target) (b j.target)
  rwa [Assignment.set_set, Assignment.set_self] at hcount

open Classical in
/-- How often joins yield an assignment: not at all if it differs where nothing is joined, and else
as often as the single joins do, multiplied. -/
theorem count_extendByAll (hlinked : Linked roots joins) (a b : Assignment M) :
    (db.extendByAll joins a).count b = if ∀ s, s ∉ joins.map (·.target) → b s = a s then
      (joins.map (db.multiplicity b)).prod else 0 := by
  induction hlinked generalizing b with
  | nil =>
      have hagree : (∀ s, b s = a s) ↔ a = b := ⟨fun h => funext fun s => (h s).symm, by simp_all⟩
      simp [extendByAll, List.count_singleton, hagree]
  | @snoc joins j hlinked hparent hroot hfresh ih =>
      have hother : ∀ s, s ∈ roots ∨ s ∈ joins.map (·.target) → s ≠ j.target :=
        fun s => ne_of_new hroot hfresh
      rw [count_extendByAll_snoc (hother _ hparent) hfresh hlinked, ih]
      have hagree : (∀ s, s ∉ joins.map (·.target) → b.set j.target (a j.target) s = a s) ↔
          ∀ s, s ∉ (joins ++ [j]).map (·.target) → b s = a s := by
        refine forall_congr' fun s => ?_
        by_cases hs : s = j.target
        · simp [hs, Assignment.set_same]
        · simp [hs, Assignment.set_other _ _ hs]
      have hsame : ∀ k ∈ joins,
          db.multiplicity (b.set j.target (a j.target)) k = db.multiplicity b k := by
        intro k hk
        rw [multiplicity, multiplicity, Assignment.set_other _ _ (hother _ (hlinked.parent_mem hk)),
          Assignment.set_other _ _ (hother _ (.inr (List.mem_map_of_mem hk)))]
      have hprod : ((joins ++ [j]).map (db.multiplicity b)).prod =
          (joins.map (db.multiplicity b)).prod * db.multiplicity b j := by
        rw [List.map_append, List.prod_append, List.map_singleton, List.prod_singleton]
      rw [List.map_congr_left hsame, hprod, ite_mul, Nat.zero_mul]
      exact if_congr hagree rfl rfl

/-- Joins in another order yield the same assignments, each as often. -/
theorem extendByAll_perm (hlinked : Linked roots joins) (hlinked' : Linked roots joins')
    (hperm : joins.Perm joins') (a : Assignment M) :
    (db.extendByAll joins a).Perm (db.extendByAll joins' a) := by
  classical
  rw [List.perm_iff_count]
  intro b
  rw [count_extendByAll hlinked, count_extendByAll hlinked',
    (hperm.map (db.multiplicity b)).prod_eq]
  simp only [(hperm.map (·.target)).mem_iff]

end Database

/-- Join sets with the same paths join the same, in some order. -/
theorem JoinSet.joined_perm {M : Type} {S : Schema M} {joins joins' : JoinSet M}
    (h : joins.Sound S) (h' : joins'.Sound S) (hmodel : joins.model = joins'.model)
    (hpaths : ∀ path, path ∈ joins.paths ↔ path ∈ joins'.paths) :
    joins.joined.Perm joins'.joined := by
  have hsubset := joined_subset_of_paths h h' hmodel fun path => (hpaths path).1
  have hsubset' := joined_subset_of_paths h' h hmodel.symm fun path => (hpaths path).2
  exact (List.perm_ext_iff_of_nodup h.nodup.of_map h'.nodup.of_map).2
    fun j => ⟨fun hj => hsubset hj, fun hj => hsubset' hj⟩

theorem JoinSet.joins_perm {M : Type} {S : Schema M} {joins joins' : JoinSet M}
    (h : joins.Sound S) (h' : joins'.Sound S) (hmodel : joins.model = joins'.model)
    (hscope : joins.scope = joins'.scope)
    (hpaths : ∀ path, path ∈ joins.paths ↔ path ∈ joins'.paths) :
    joins.joins.Perm joins'.joins := by
  have hperm := joined_perm h h' hmodel hpaths
  simpa only [JoinSet.joins, parentOf, sourceOf, hscope] using hperm.map _

namespace Select

variable {M : Type} [DecidableEq M] {S : Schema M} {db : Database M} {s t : Select M}
  {root : Source M} {joins joins' : JoinSet M} {rows : List (List (Field M))}

/-- A row is left as often after joins in another order and conditions that hold alike. -/
theorem ways_of_perm (hlinked : Database.Linked [root] s.joins)
    (hlinked' : Database.Linked [root] t.joins) (hperm : s.joins.Perm t.joins)
    (hholds : ∀ a, (∀ f ∈ s.conditions, f.holds a = true) ↔ ∀ f ∈ t.conditions, f.holds a = true)
    (x : Row) : s.ways db root x = t.ways db root x := by
  have hsame : ∀ a,
      (s.conditions.all fun f => f.holds a) = t.conditions.all fun f => f.holds a := by
    intro a
    rw [Bool.eq_iff_iff, List.all_eq_true, List.all_eq_true]
    exact hholds a
  have hjoined : (db.joinedRows root s.joins x).Perm (db.joinedRows root t.joins x) :=
    Database.extendByAll_perm hlinked hlinked' hperm _
  simp only [ways, completions, hsame]
  exact (hjoined.filter _).length_eq

/-- What a statement returns depends on how often each row is left, not on its joins. -/
theorem OnRoot.run_eq_ok_of_ways (h : s.OnRoot S joins) (h' : t.OnRoot S joins')
    (hmodel : joins'.model = joins.model) (hsorder : s.order = []) (htorder : t.order = [])
    (hdistinct : s.distinct = t.distinct)
    (htaken : s.Taken → t.Taken)
    (hways : ∀ x ∈ db.rows joins.model,
      s.ways db (.own joins.model) x = t.ways db (.own joins.model) x)
    (hrows : s.run S db = .ok rows) : t.run S db = .ok rows := by
  obtain ⟨rows', hrows'⟩ := (h'.run_ok_iff db).2 (htaken ((h.run_ok_iff db).1 ⟨rows, hrows⟩))
  rw [hrows']
  congr 1
  cases hdrop : s.distinct with
  | true =>
      rw [h.run_distinct hsorder hdrop hrows, h'.run_distinct htorder (hdistinct ▸ hdrop) hrows',
        hmodel]
      congr 2
      exact List.filter_congr fun x hx => by rw [hways x hx]
  | false =>
      rw [h.run_repeated hsorder hdrop hrows, h'.run_repeated htorder (hdistinct ▸ hdrop) hrows',
        hmodel]
      exact List.flatMap_congr fun x hx => by rw [hways x hx]

end Select

end RowAccess
