import Mathlib.Data.List.Nodup
import RowAccess.Database.Evaluation
/-!
# Rows side by side

What a sequence of outer joins makes of a row. Although the joins are attached one after the other,
the assignments they yield are described without any order: every joined source holds a row related
to its parent's, or none where there is no such row.
-/

namespace RowAccess.Database

variable {M : Type} (db : Database M)

/-- What an outer join may put beside a parent: a related row, or no row at all if the parent is
missing or nothing is related to it. -/
def Chosen (r : Relationship M) (parent child : Option Row) : Prop :=
  match child with
  | some row => ∃ p, parent = some p ∧ row ∈ db.related r p
  | none => ∀ p, parent = some p → db.related r p = []

/-- Every joined source holds what its join may put beside its parent. -/
def Respects (joins : List (Join M)) (a : Assignment M) : Prop :=
  ∀ j ∈ joins, db.Chosen j.relationship (a j.parent) (a j.target)

/-- Joins that start at the given roots: each goes on from a root or from what an earlier one
attached, and attaches a source that is new. -/
inductive Linked (roots : List (Source M)) : List (Join M) → Prop
  | nil : Linked roots []
  | snoc {joins : List (Join M)} {j : Join M} (hlinked : Linked roots joins)
      (hparent : j.parent ∈ roots ∨ j.parent ∈ joins.map (·.target)) (hroot : j.target ∉ roots)
      (hfresh : j.target ∉ joins.map (·.target)) : Linked roots (joins ++ [j])

/-- What is new is none of the sources that joins start at or attach. -/
theorem ne_of_new {roots : List (Source M)} {joins : List (Join M)} {new : Source M}
    (hroot : new ∉ roots) (hfresh : new ∉ joins.map (·.target)) {s : Source M}
    (hs : s ∈ roots ∨ s ∈ joins.map (·.target)) : s ≠ new := by
  rintro rfl
  exact hs.elim hroot hfresh

variable {db}

theorem chosen_none_iff {r : Relationship M} {parent : Option Row} :
    db.Chosen r parent none ↔ parent.toList.flatMap (db.related r) = [] := by
  cases parent <;> simp [Chosen]

theorem chosen_some_iff {r : Relationship M} {parent : Option Row} {row : Row} :
    db.Chosen r parent (some row) ↔ row ∈ parent.toList.flatMap (db.related r) := by
  cases parent <;> simp [Chosen]

theorem Linked.parent_mem {roots : List (Source M)} {joins : List (Join M)}
    (h : Linked roots joins) {j : Join M} (hj : j ∈ joins) :
    j.parent ∈ roots ∨ j.parent ∈ joins.map (·.target) := by
  induction h with
  | nil => simp at hj
  | snoc _ hparent _ _ ih =>
      rw [List.map_append, List.mem_append, ← or_assoc]
      rcases List.mem_append.1 hj with hold | hnew
      · exact .inl (ih hold)
      · obtain rfl := List.mem_singleton.1 hnew
        exact .inl hparent

theorem Linked.target_not_mem {roots : List (Source M)} {joins : List (Join M)}
    (h : Linked roots joins) {j : Join M} (hj : j ∈ joins) : j.target ∉ roots := by
  induction h with
  | nil => simp at hj
  | snoc _ _ hroot _ ih =>
      rcases List.mem_append.1 hj with hold | hnew
      · exact ih hold
      · obtain rfl := List.mem_singleton.1 hnew
        exact hroot

theorem Linked.nodup_targets {roots : List (Source M)} {joins : List (Join M)}
    (h : Linked roots joins) : (joins.map (·.target)).Nodup := by
  induction h with
  | nil => simp
  | snoc _ _ _ hfresh ih =>
      rw [List.map_append, List.nodup_append]
      refine ⟨ih, by simp, ?_⟩
      rintro s hs last hlast rfl
      rw [List.mem_singleton.1 hlast] at hs
      exact hfresh hs

theorem Linked.mono {roots more : List (Source M)} {joins : List (Join M)} (h : Linked roots joins)
    (hroots : roots ⊆ more) (htargets : ∀ j ∈ joins, j.target ∉ more) : Linked more joins := by
  induction h with
  | nil => exact .nil
  | snoc _ hparent _ hfresh ih =>
      refine .snoc (ih fun j hj => htargets j (by simp [hj])) ?_ (htargets _ (by simp)) hfresh
      exact hparent.imp_left fun hp => hroots hp

theorem Linked.append {roots : List (Source M)} {first second : List (Join M)}
    (hfirst : Linked roots first) (hsecond : Linked roots second)
    (hdisjoint : ∀ j ∈ second, j.target ∉ first.map (·.target)) :
    Linked roots (first ++ second) := by
  induction hsecond with
  | nil => simpa using hfirst
  | @snoc joins j _ hparent hroot hfresh ih =>
      rw [← List.append_assoc]
      refine .snoc (ih fun k hk => hdisjoint k (by simp [hk])) ?_ hroot ?_
      · apply hparent.imp_right
        intro hmem
        rw [List.map_append, List.mem_append]
        exact .inr hmem
      · rw [List.map_append, List.mem_append, not_or]
        exact ⟨hdisjoint j (by simp), hfresh⟩

/-- Only the roots and the joined sources matter to a sequence of joins. -/
theorem Respects.congr {roots : List (Source M)} {joins : List (Join M)}
    (hlinked : Linked roots joins) {a b : Assignment M} (h : db.Respects joins a)
    (hagree : ∀ s, s ∈ roots ∨ s ∈ joins.map (·.target) → b s = a s) : db.Respects joins b := by
  intro j hj
  rw [hagree _ (hlinked.parent_mem hj), hagree _ (.inr (List.mem_map_of_mem hj))]
  exact h j hj

variable [DecidableEq M]

theorem mem_extendBy {j : Join M} {a b : Assignment M} :
    b ∈ db.extendBy j a ↔
      ∃ child, db.Chosen j.relationship (a j.parent) child ∧ b = a.set j.target child := by
  unfold extendBy
  cases hrows : (a j.parent).toList.flatMap (db.related j.relationship) with
  | nil =>
      rw [List.mem_singleton]
      constructor
      · rintro rfl
        exact ⟨none, chosen_none_iff.2 hrows, rfl⟩
      · rintro ⟨child, hchild, rfl⟩
        cases child with
        | none => rfl
        | some row =>
            rw [chosen_some_iff, hrows] at hchild
            simp at hchild
  | cons first rest =>
      simp only [List.mem_map]
      constructor
      · rintro ⟨row, hrow, rfl⟩
        exact ⟨some row, chosen_some_iff.2 (hrows ▸ hrow), rfl⟩
      · rintro ⟨child, hchild, rfl⟩
        cases child with
        | none =>
            rw [chosen_none_iff, hrows] at hchild
            simp at hchild
        | some row => exact ⟨row, hrows ▸ chosen_some_iff.1 hchild, rfl⟩

theorem extendByAll_snoc (joins : List (Join M)) (j : Join M) (a : Assignment M) :
    db.extendByAll (joins ++ [j]) a = (db.extendByAll joins a).flatMap (db.extendBy j) := by
  simp [extendByAll]

/-- The assignments a sequence of joins yields are those that respect every single join and leave
everything else as it was. -/
theorem mem_extendByAll {roots : List (Source M)} {joins : List (Join M)}
    (hlinked : Linked roots joins) {a b : Assignment M} :
    b ∈ db.extendByAll joins a ↔
      (∀ s, s ∉ joins.map (·.target) → b s = a s) ∧ db.Respects joins b := by
  induction hlinked generalizing b with
  | nil =>
      constructor
      · intro hb
        obtain rfl := List.mem_singleton.1 hb
        exact ⟨fun _ _ => rfl, fun j hj => by simp at hj⟩
      · rintro ⟨hagree, -⟩
        exact List.mem_singleton.2 (funext fun s => hagree s (by simp))
  | @snoc joins j hlinked hparent hroot hfresh ih =>
      have hother : ∀ s, s ∈ roots ∨ s ∈ joins.map (·.target) → s ≠ j.target :=
        fun s => ne_of_new hroot hfresh
      rw [extendByAll_snoc]
      simp only [List.mem_flatMap, mem_extendBy]
      constructor
      · rintro ⟨before, hbefore, child, hchild, rfl⟩
        obtain ⟨hagree, hrespects⟩ := ih.1 hbefore
        refine ⟨fun s hs => ?_, fun k hk => ?_⟩
        · rw [List.map_append, List.mem_append, not_or] at hs
          rw [Assignment.set_other _ _ (by simpa using hs.2), hagree s hs.1]
        · rcases List.mem_append.1 hk with hold | hnew
          · refine Respects.congr hlinked hrespects (fun s hs => ?_) k hold
            exact Assignment.set_other _ _ (hother s hs)
          · obtain rfl := List.mem_singleton.1 hnew
            rw [Assignment.set_same, Assignment.set_other _ _ (hother _ hparent)]
            exact hchild
      · rintro ⟨hagree, hrespects⟩
        have hback : ∀ s, s ≠ j.target → (b.set j.target (a j.target)) s = b s :=
          fun s hs => Assignment.set_other _ _ hs
        refine ⟨b.set j.target (a j.target), ih.2 ⟨fun s hs => ?_, ?_⟩, b j.target, ?_, ?_⟩
        · by_cases hsj : s = j.target
          · rw [hsj, Assignment.set_same]
          · rw [hback s hsj]
            exact hagree s (by simp [hs, hsj])
        · have hfirst : db.Respects joins b := fun k hk => hrespects k (by simp [hk])
          exact hfirst.congr hlinked fun s hs => hback s (hother s hs)
        · rw [hback _ (hother _ hparent)]
          exact hrespects j (by simp)
        · funext s
          by_cases hsj : s = j.target
          · rw [hsj, Assignment.set_same]
          · rw [Assignment.set_other _ _ hsj, hback s hsj]

/-! ## Chains -/

theorem mem_extendByChain {chain : Chain M} (hlinked : Linked [chain.root] chain.joins)
    {a b : Assignment M} :
    b ∈ db.extendByChain chain a ↔
      (∀ s, s ∉ chain.sources → b s = a s) ∧
        (∃ row ∈ db.rows chain.root.model, b chain.root = some row) ∧
        db.Respects chain.joins b := by
  have hroot : chain.root ∉ chain.joins.map (·.target) := by
    intro h
    obtain ⟨j, hj, heq⟩ := List.mem_map.1 h
    exact hlinked.target_not_mem hj (by simp [heq])
  simp only [extendByChain, List.mem_flatMap, mem_extendByAll hlinked]
  constructor
  · rintro ⟨row, hrow, hagree, hrespects⟩
    refine ⟨fun s hs => ?_, ⟨row, hrow, ?_⟩, hrespects⟩
    · rw [Chain.sources, List.mem_cons, not_or] at hs
      rw [hagree s hs.2, Assignment.set_other _ _ hs.1]
    · rw [hagree _ hroot, Assignment.set_same]
  · rintro ⟨hagree, ⟨row, hrow, hset⟩, hrespects⟩
    refine ⟨row, hrow, fun s hs => ?_, hrespects⟩
    by_cases hsr : s = chain.root
    · rw [hsr, hset, Assignment.set_same]
    · rw [Assignment.set_other _ _ hsr]
      exact hagree s (by simp [Chain.sources, hsr, hs])

theorem foldl_flatMap_eq {α β : Type} (f : α → β → List β) (xs : List α) (start : List β) :
    xs.foldl (fun found x => found.flatMap (f x)) start =
      start.flatMap fun b => xs.foldl (fun found x => found.flatMap (f x)) [b] := by
  induction xs generalizing start with
  | nil => simp
  | cons x xs ih =>
      simp only [List.foldl_cons, List.flatMap_singleton]
      rw [ih, List.flatMap_assoc]
      congr 1
      funext b
      rw [← ih]

theorem mem_foldl_extendByChain {chains : List (Chain M)}
    (hlinked : ∀ chain ∈ chains, Linked [chain.root] chain.joins)
    (hnodup : (chains.flatMap Chain.sources).Nodup) {a b : Assignment M} :
    b ∈ chains.foldl (fun found chain => found.flatMap (db.extendByChain chain)) [a] ↔
      (∀ s, s ∉ chains.flatMap Chain.sources → b s = a s) ∧
        ∀ chain ∈ chains, (∃ row ∈ db.rows chain.root.model, b chain.root = some row) ∧
          db.Respects chain.joins b := by
  induction chains generalizing a with
  | nil =>
      constructor
      · intro hb
        obtain rfl := List.mem_singleton.1 hb
        exact ⟨fun _ _ => rfl, by simp⟩
      · rintro ⟨hagree, -⟩
        exact List.mem_singleton.2 (funext fun s => hagree s (by simp))
  | cons chain chains ih =>
      have hfirst := hlinked chain (by simp)
      rw [List.flatMap_cons, List.nodup_append] at hnodup
      obtain ⟨-, hnodup, hdisjoint⟩ := hnodup
      have hrest := fun a => ih (fun c hc => hlinked c (by simp [hc])) hnodup (a := a)
      have hsources : ∀ s, s ∈ [chain.root] ∨ s ∈ chain.joins.map (·.target) →
          s ∈ chain.sources := by
        intro s hs
        simpa [Chain.sources] using hs
      rw [List.foldl_cons, List.flatMap_singleton, foldl_flatMap_eq]
      simp only [List.mem_flatMap, mem_extendByChain hfirst, hrest, List.forall_mem_cons]
      constructor
      · rintro ⟨middle, ⟨hagree, ⟨row, hrow, hset⟩, hrespects⟩, hagree', hchains⟩
        have hsame : ∀ s ∈ chain.sources, b s = middle s := by
          intro s hs
          apply hagree' s
          intro hother
          obtain ⟨c, hc, hsc⟩ := hother
          exact hdisjoint s hs s (List.mem_flatMap.2 ⟨c, hc, hsc⟩) rfl
        refine ⟨fun s hs => ?_, ⟨⟨row, hrow, ?_⟩, ?_⟩, hchains⟩
        · rw [List.exists_mem_cons_iff, not_or] at hs
          rw [hagree' s hs.2, hagree s hs.1]
        · rw [hsame _ (by simp [Chain.sources]), hset]
        · exact hrespects.congr hfirst fun s hs => hsame s (hsources s hs)
      · rintro ⟨hagree, ⟨⟨row, hrow, hset⟩, hrespects⟩, hchains⟩
        obtain ⟨middle, hinside, houtside⟩ := Assignment.exists_pieced (· ∈ chain.sources) b a
        refine ⟨middle, ⟨houtside, ⟨row, hrow, ?_⟩, ?_⟩, fun s hs => ?_, hchains⟩
        · rw [hinside _ (by simp [Chain.sources]), hset]
        · exact hrespects.congr hfirst fun s hs => hinside s (hsources s hs)
        · by_cases hsc : s ∈ chain.sources
          · rw [hinside s hsc]
          · rw [houtside s hsc]
            exact hagree s (by simpa [hsc] using hs)

/-- The assignments that chains yield: each root holds a row of its model, each joined source what
its join may put there, and every other source nothing. -/
theorem mem_assignments {chains : List (Chain M)}
    (hlinked : ∀ chain ∈ chains, Linked [chain.root] chain.joins)
    (hnodup : (chains.flatMap Chain.sources).Nodup) {b : Assignment M} :
    b ∈ db.assignments chains ↔
      (∀ s, s ∉ chains.flatMap Chain.sources → b s = none) ∧
        ∀ chain ∈ chains, (∃ row ∈ db.rows chain.root.model, b chain.root = some row) ∧
          db.Respects chain.joins b :=
  mem_foldl_extendByChain hlinked hnodup

end RowAccess.Database
