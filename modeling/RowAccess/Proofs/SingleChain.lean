import RowAccess.Proofs.ResultRows
/-!
# Statements on a single chain

Joins that all start at one root make up a single chain, in the order they were attached. What a
statement reads besides stands alone after that chain, each source once and in the order of the
text.
-/

namespace RowAccess

namespace Database

variable {M : Type}

theorem Linked.nodup_sources {root : Source M} {joins : List (Join M)} (h : Linked [root] joins) :
    (Chain.sources ⟨root, joins⟩).Nodup := by
  refine List.nodup_cons.2 ⟨fun hmem => ?_, h.nodup_targets⟩
  obtain ⟨j, hj, heq⟩ := List.mem_map.1 hmem
  exact h.target_not_mem hj (by simp [heq])

end Database

namespace Layout

variable {M : Type} [DecidableEq M]

/-- Joins that all start at one root are placed one after the other. -/
theorem place_linked {root : Source M} {joins : List (Join M)}
    (h : Database.Linked [root] joins) :
    joins.foldlM (fun chains j => place j chains) [] =
      .ok (if joins.isEmpty then [] else [⟨root, joins⟩]) := by
  induction h with
  | nil => rfl
  | @snoc joins j hlinked hparent hroot hfresh ih =>
      rw [List.foldlM_append, Success.bind_ok ih, List.foldlM_cons]
      cases joins with
      | nil =>
          obtain rfl : j.parent = root := by simpa using hparent
          rfl
      | cons first rest =>
          have hheld : j.parent ∈ [Chain.mk root (first :: rest)].flatMap Chain.sources := by
            simpa [Chain.sources] using hparent
          have hplace := place_held (by simpa using hlinked.nodup_sources) hheld
          have hholds : (Chain.mk root (first :: rest)).holds j.parent = true :=
            holds_iff.2 (by simpa using hheld)
          simp only [extendWhere, List.map_singleton, if_pos hholds, extend_of_holds hholds]
            at hplace
          rw [List.isEmpty_cons, if_neg Bool.false_ne_true, Success.bind_ok hplace]
          rfl

/-- Sources that no chain holds are added once each, in order. -/
theorem foldl_addSource (sources : List (Source M)) (chains : List (Chain M)) :
    sources.foldl addSource chains = chains ++
      (firstOccurrences id (chains.flatMap Chain.sources) sources).map fun s => { root := s } := by
  induction sources generalizing chains with
  | nil => simp [firstOccurrences]
  | cons s sources ih =>
      rw [List.foldl_cons, ih, addSource, firstOccurrences]
      by_cases hheld : s ∈ chains.flatMap Chain.sources
      · rw [if_pos (any_holds_iff.2 hheld), if_pos (by simpa using hheld)]
      · rw [if_neg (mt any_holds_iff.1 hheld), if_neg (by simpa using hheld)]
        have hseen : firstOccurrences id
            ((chains ++ [({ root := s } : Chain M)]).flatMap Chain.sources) sources =
              firstOccurrences id (s :: chains.flatMap Chain.sources) sources := by
          refine firstOccurrences_congr (fun r => ?_) sources
          simp [Chain.sources, or_comm]
        rw [hseen]
        simp

/-- A statement whose joins all start at what it selects from reads a single chain, and besides it
what its conditions read that is not on the chain. -/
theorem chains_of_linked {statement : Select M} {root : Source M}
    (hlinked : Database.Linked [root] statement.joins)
    (hselected : statement.selected.filterMap Selected.source? = [root]) :
    chains statement = .ok (⟨root, statement.joins⟩ ::
      (firstOccurrences id (Chain.sources ⟨root, statement.joins⟩)
        (statement.conditions.flatMap filterSources)).map fun s => { root := s }) := by
  rw [chains, Success.bind_ok (place_linked hlinked), hselected]
  have hfirst : addSource (if statement.joins.isEmpty then [] else [⟨root, statement.joins⟩]) root =
      [⟨root, statement.joins⟩] := by
    cases statement.joins <;> simp [addSource, Chain.holds, Chain.sources]
  simp only [List.singleton_append, List.foldl_cons, hfirst, foldl_addSource]
  simp

end Layout

end RowAccess
