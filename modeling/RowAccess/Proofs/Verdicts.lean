import Mathlib.Data.Set.List
import RowAccess.Expectation
import RowAccess.Proofs.CountedRows
import RowAccess.Proofs.Decoding
/-!
# Verdicts of expectations

An expectation either passes or names a discrepancy. For a statement that selects a single entity
with integer ids the verdict is right: what the expectation compares are the ids of the accessible
rows, and these come without repetition if repeated rows are dropped, whatever is joined.
-/

namespace RowAccess

/-! ## What is selected holds a row -/

namespace Layout

variable {M : Type} [DecidableEq M]

/-- Placing joins attaches nothing but their targets. -/
theorem target_of_foldlM_place {joins : List (Join M)} {chains after : List (Chain M)}
    (h : joins.foldlM (fun chains j => place j chains) chains = .ok after) {k : Join M}
    (hk : ∃ chain ∈ after, k ∈ chain.joins) :
    (∃ chain ∈ chains, k ∈ chain.joins) ∨ k.target ∈ joins.map (·.target) := by
  induction joins generalizing chains with
  | nil =>
      obtain rfl := Except.ok.inj h
      exact .inl hk
  | cons j joins ih =>
      rw [List.foldlM_cons] at h
      obtain ⟨middle, hmiddle, hrest⟩ := Success.bind_eq_ok_iff.1 h
      rw [List.map_cons, List.mem_cons, ← or_assoc]
      rcases ih hrest with hplaced | htarget
      · exact .inl (joins_of_place hmiddle hplaced)
      · exact .inr htarget

theorem target_of_placed {joins : List (Join M)} {chains : List (Chain M)}
    (h : joins.foldlM (fun chains j => place j chains) [] = .ok chains) {chain : Chain M}
    (hchain : chain ∈ chains) {k : Join M} (hk : k ∈ chain.joins) :
    k.target ∈ joins.map (·.target) := by
  refine (target_of_foldlM_place h ⟨chain, hchain, hk⟩).resolve_left ?_
  rintro ⟨none, hnone, -⟩
  cases hnone

variable {s : Select M} {chains : List (Chain M)}

theorem target_of_chains (h : Layout.chains s = .ok chains) {chain : Chain M}
    (hchain : chain ∈ chains) {k : Join M} (hk : k ∈ chain.joins) :
    k.target ∈ s.joins.map (·.target) := by
  obtain ⟨joined, hjoined, hothers⟩ := Success.bind_eq_ok_iff.1 h
  obtain rfl := Except.ok.inj hothers
  obtain ⟨held, hheld, hk⟩ := (joins_foldl_addSource _ joined k).1 ⟨chain, hchain, hk⟩
  exact target_of_placed hjoined hheld hk

/-- What a statement selects starts a chain, unless a join of the statement leads to it. -/
theorem exists_root (h : Layout.chains s = .ok chains) {source : Source M}
    (hsource : source ∈ s.selected.filterMap Selected.source?)
    (htarget : source ∉ s.joins.map (·.target)) : ∃ chain ∈ chains, chain.root = source := by
  obtain ⟨joined, hjoined, hothers⟩ := Success.bind_eq_ok_iff.1 h
  obtain rfl := Except.ok.inj hothers
  rw [foldl_addSource]
  by_cases hheld : source ∈ joined.flatMap Chain.sources
  · obtain ⟨chain, hchain, hmem⟩ := List.mem_flatMap.1 hheld
    rcases List.mem_cons.1 hmem with rfl | hjoin
    · exact ⟨chain, List.mem_append_left _ hchain, rfl⟩
    · obtain ⟨k, hk, rfl⟩ := List.mem_map.1 hjoin
      exact absurd (target_of_placed hjoined hchain hk) htarget
  · have halone := mem_firstOccurrences_id_iff.2
      ⟨List.mem_append_left (s.conditions.flatMap filterSources) hsource, hheld⟩
    exact ⟨_, List.mem_append_right _ (List.mem_map_of_mem halone), rfl⟩

end Layout

namespace Database

variable {M : Type} [DecidableEq M] {db : Database M} {source : Source M} {a b : Assignment M}

/-- Joins leave alone what they do not lead to. -/
theorem extendByAll_other {joins : List (Join M)} (hb : b ∈ db.extendByAll joins a)
    (hsource : source ∉ joins.map (·.target)) : b source = a source := by
  induction joins generalizing a with
  | nil =>
      obtain rfl := List.mem_singleton.1 hb
      rfl
  | cons j joins ih =>
      rw [List.map_cons, List.mem_cons, not_or] at hsource
      rw [extendByAll_cons] at hb
      obtain ⟨c, hc, hb⟩ := List.mem_flatMap.1 hb
      obtain ⟨child, -, rfl⟩ := mem_extendBy.1 hc
      rw [ih hb hsource.2, Assignment.set_other _ _ hsource.1]

/-- The root of a chain holds a stored row, unless a join of some chain leads to it. -/
theorem exists_row_of_mem_assignments {chains : List (Chain M)}
    (htargets : ∀ chain ∈ chains, source ∉ chain.joins.map (·.target))
    (hroot : ∃ chain ∈ chains, chain.root = source) (ha : a ∈ db.assignments chains) :
    ∃ x ∈ db.rows source.model, a source = some x := by
  induction chains using List.reverseRecOn generalizing a with
  | nil => simp at hroot
  | append_singleton chains last ih =>
      rw [assignments, List.foldl_append, List.foldl_cons, List.foldl_nil] at ha
      obtain ⟨before, hbefore, ha⟩ := List.mem_flatMap.1 ha
      obtain ⟨row, hrow, ha⟩ := List.mem_flatMap.1 ha
      rw [extendByAll_other ha (htargets last (by simp))]
      by_cases hlast : source = last.root
      · subst hlast
        exact ⟨row, hrow, Assignment.set_same _ _ _⟩
      · rw [Assignment.set_other _ _ hlast]
        refine ih (fun chain hchain => htargets chain (by simp [hchain])) ?_ hbefore
        obtain ⟨chain, hchain, rfl⟩ := hroot
        rcases List.mem_append.1 hchain with hold | hnew
        · exact ⟨chain, hold, rfl⟩
        · exact absurd (congrArg Chain.root (List.mem_singleton.1 hnew)) hlast

end Database

theorem Select.exists_row_of_satisfying {M : Type} [DecidableEq M] {db : Database M}
    {s : Select M} {chains : List (Chain M)} (h : Layout.chains s = .ok chains)
    {source : Source M} (hsource : source ∈ s.selected.filterMap Selected.source?)
    (htarget : source ∉ s.joins.map (·.target)) {a : Assignment M}
    (ha : a ∈ s.satisfying db chains) : ∃ x ∈ db.rows source.model, a source = some x := by
  refine Database.exists_row_of_mem_assignments (fun chain hchain hmem => htarget ?_)
    (Layout.exists_root h hsource htarget) (List.mem_filter.1 ha).1
  obtain ⟨k, hk, rfl⟩ := List.mem_map.1 hmem
  exact Layout.target_of_chains h hchain hk

/-! ## Integers as values -/

namespace Value

variable {ms ns : List Int}

theorem any_equals_int_iff {n : Int} : (ns.map int).any (equals (.int n)) = true ↔ n ∈ ns := by
  simp [equals_int_iff]

theorem among_int_iff : among (ms.map int) (ns.map int) = true ↔ ms ⊆ ns := by
  induction ms with
  | nil => simp [among]
  | cons m ms ih =>
      rw [List.map_cons, among, Bool.and_eq_true, any_equals_int_iff, ih, List.cons_subset]

/-- Integers are distinct as values exactly if they are as integers. -/
theorem distinctValues_int (ns : List Int) :
    distinctValues (ns.map int) = (firstOccurrences id [] ns).map int := by
  have hkept : ∀ kept : List Int,
      (ns.map int).foldl (fun kept v => if kept.any (equals v) then kept else kept ++ [v])
        (kept.map int) = (kept ++ firstOccurrences id kept ns).map int := by
    induction ns with
    | nil => simp [firstOccurrences]
    | cons n ns ih =>
        intro kept
        rw [List.map_cons, List.foldl_cons, firstOccurrences]
        by_cases hn : n ∈ kept
        · rw [if_pos (any_equals_int_iff.2 hn), ih, if_pos (by simpa using hn)]
        · have hsame : firstOccurrences id (kept ++ [n]) ns = firstOccurrences id (n :: kept) ns :=
            firstOccurrences_congr (by simp [or_comm]) ns
          have hone : kept.map int ++ [int n] = (kept ++ [n]).map int := by simp
          rw [if_neg (mt any_equals_int_iff.1 hn), if_neg (by simpa using hn), hone, ih, hsame]
          simp
  simpa [distinctValues] using hkept []

theorem checkOrdered_int (ns : List Int) : checkOrdered (ns.map int) = .ok () := by
  induction ns with
  | nil => rfl
  | cons m ns ih =>
      cases ns with
      | nil => rfl
      | cons n ns =>
          have hordered : (less? (int n) (int m)).isSome = true := rfl
          rw [List.map_cons, List.map_cons, checkOrdered, if_pos hordered]
          exact ih

theorem exists_sorted_int (ns : List Int) : ∃ values, sorted (ns.map int) = .ok values :=
  ⟨_, Success.bind_ok (checkOrdered_int ns)⟩

theorem checkOrdered_error {values : List Value} {fault : Fault}
    (h : checkOrdered values = .error fault) : ∃ left right, fault = .unordered left right := by
  induction values with
  | nil => cases h
  | cons v values ih =>
      cases values with
      | nil => cases h
      | cons w values =>
          rw [checkOrdered] at h
          split at h
          · exact ih h
          · cases h
            exact ⟨_, _, rfl⟩

theorem sorted_error {values : List Value} {fault : Fault} (h : sorted values = .error fault) :
    ∃ left right, fault = .unordered left right := by
  rcases Success.bind_eq_error_iff.1 h with hordered | ⟨_, -, hok⟩
  · exact checkOrdered_error hordered
  · cases hok

theorem unhashableIn?_int (ns : List Int) : unhashableIn? (ns.map int) = none := by
  induction ns with
  | nil => rfl
  | cons n ns ih => simpa [unhashableIn?, unhashable?] using ih

end Value

/-! ## Collections without repetitions -/

variable {α : Type} {xs ys : List α}

/-- Nothing is lost exactly if nothing is repeated. -/
theorem length_firstOccurrences_eq_iff [BEq α] [LawfulBEq α] :
    (firstOccurrences id [] xs).length = xs.length ↔ xs.Nodup := by
  constructor
  · intro hlength
    rw [← (firstOccurrences_sublist [] xs).eq_of_length hlength]
    exact nodup_firstOccurrences_id [] xs
  · intro hnodup
    rw [firstOccurrences_of_nodup (by simpa using hnodup) (by simp)]

/-- Lists without repetitions have the same elements if the one is among the other and as long. -/
theorem same_mem_iff_of_nodup (hxs : xs.Nodup) (hys : ys.Nodup) :
    xs.length = ys.length ∧ xs ⊆ ys ↔ ∀ x, x ∈ xs ↔ x ∈ ys := by
  constructor
  · rintro ⟨hlength, hsubset⟩ x
    have hperm := (List.subperm_of_subset hxs hsubset).perm_of_length_le hlength.ge
    exact hperm.mem_iff
  · intro hsame
    have hperm := (List.perm_ext_iff_of_nodup hxs hys).2 hsame
    exact ⟨hperm.length_eq, hperm.subset⟩

/-! ## Rows with integer ids -/

/-- The source that an entry of a select list stands for as a whole. -/
def Selected.entity? {M : Type} : Selected M → Option (Source M)
  | .model m => some (.own m)
  | .renamed m slot => some ⟨m, .renamed slot⟩
  | .column _ | .count _ | .constant _ => none

/-- The rows of a model have integer ids, no two the same. -/
structure Database.IntegerIds {M : Type} (db : Database M) (S : Schema M) (model : M) : Prop where
  key : (S.model model).primaryKey = ["id"]
  stored : ∀ x ∈ db.rows model, ∃ n : Int, S.keyCells model x = [.int n]
  unique : ((db.rows model).map (S.keyCells model)).Nodup

/-- The row of a model that has a certain id. -/
def Field.withId {M : Type} (model : M) (n : Int) : Field M := .row model [.int n]

theorem Field.id?_withId {M : Type} {S : Schema M} {model : M}
    (hkey : (S.model model).primaryKey = ["id"]) (n : Int) :
    (Field.withId model n).id? S = .ok (.int n) := by
  simp [Field.withId, Field.id?, hkey, Cell.value]

/-- A statement that selects a model with integer ids, and that joins nothing to where the model is
read from, lists rows that have ids, each once if repeated rows are dropped. -/
theorem Select.exists_ids {M : Type} [DecidableEq M] {S : Schema M} {db : Database M}
    {s : Select M} {model : M} {rows : List (List (Field M))}
    (hrows : s.run S db = .ok rows) (hselected : s.selected = [.model model])
    (hids : db.IntegerIds S model) (htarget : Source.own model ∉ s.joins.map (·.target)) :
    ∃ ids : List Int, rows = ids.map (fun n => [.withId model n]) ∧
      (s.distinct = true → ids.Nodup) := by
  obtain ⟨chains, hchains, -, -, rfl⟩ := run_eq_ok_iff.1 hrows
  have hroot : ∀ a ∈ s.satisfying db chains, ∃ x ∈ db.rows model, a (.own model) = some x := by
    intro a ha
    exact exists_row_of_satisfying hchains (by simp [hselected, Selected.source?]) htarget ha
  have hrange : s.resultOf S (s.satisfying db chains) ∈
      Set.range (List.map fun n : Int => [Field.withId model n]) := by
    rw [Set.range_list_map]
    intro r hr
    obtain ⟨a, ha, rfl⟩ := exists_of_mem_resultOf (counts_of_model hselected) hr
    obtain ⟨x, hx, hax⟩ := hroot a ha
    obtain ⟨n, hn⟩ := hids.stored x hx
    refine ⟨n, ?_⟩
    rw [fields, hselected, List.map_singleton, Selected.field_model hax, hn]
    rfl
  obtain ⟨ids, hmap⟩ := hrange
  refine ⟨ids, hmap.symm, fun hdistinct => ?_⟩
  have hnodup := nodup_resultOf hselected hdistinct hids.unique hroot
  rw [← hmap] at hnodup
  exact hnodup.of_map _

/-! ## Verdicts -/

/-- A check that passes if something holds and names a discrepancy if it does not. -/
structure Verdict (check : Except Fault Unit) (holds : Prop) : Prop where
  pass : holds → check = .ok ()
  fail : ¬ holds → ∃ d, check = .error (.unmet d)

theorem Verdict.passes_iff {check : Except Fault Unit} {holds : Prop} (h : Verdict check holds) :
    check = .ok () ↔ holds := by
  refine ⟨fun hok => ?_, h.pass⟩
  by_contra hnot
  obtain ⟨d, hd⟩ := h.fail hnot
  cases hok.symm.trans hd

theorem Field.mapM_id?_withId {M : Type} {S : Schema M} {model : M}
    (hkey : (S.model model).primaryKey = ["id"]) (ids : List Int) :
    (ids.map (Field.withId model)).mapM (Field.id? S) = .ok (ids.map Value.int) := by
  rw [Success.mapM_eq_ok_iff, List.forall₂_map_left_iff, List.forall₂_map_right_iff,
    List.forall₂_same]
  exact fun n _ => Field.id?_withId hkey n

namespace Request

variable {M : Type} [DecidableEq M] {q : Request M} {S : Schema M} {db : Database M}
  {s : Select M} {source : Source M} {rows : List (List (Field M))} {ids : List Int}

/-- A statement that selects a single entity with integer ids yields rows that have ids, each once
if repeated rows are dropped. -/
theorem exists_ids {entry : Selected M} (hselected : s.selected = [entry])
    (hentity : entry.entity? = some source) (hids : db.IntegerIds S source.model)
    (htarget : source ∉ s.joins.map (·.target)) (hrows : q.resultRows S db s = .ok rows) :
    ∃ ids : List Int, rows = ids.map (fun n => [.withId source.model n]) ∧
      (q.config.distinct.truthy = true → ids.Nodup) := by
  obtain ⟨applied, happlied, hrun⟩ := Success.bind_eq_ok_iff.1 hrows
  cases entry with
  | column | count | constant => cases hentity
  | model m =>
      obtain rfl := Option.some.inj hentity
      obtain ⟨part, hpart, rfl⟩ := (accessible_single_iff (d := .model m)
        (by rw [hselected]; rfl)).1 happlied
      have hclear : Source.own m ∉ (s.adding part).joins.map (·.target) := by
        rw [Select.adding, List.map_append, List.mem_append]
        rintro (hold | hnew)
        · exact htarget hold
        · obtain ⟨⟨path, hrole⟩, -⟩ := hpart.target_role hnew
          cases hrole
      obtain ⟨ids, hrows, hnodup⟩ := Select.exists_ids hrun hselected hids hclear
      exact ⟨ids, hrows, fun hdistinct => hnodup (by simp [hdistinct])⟩
  | renamed m slot =>
      -- Nothing satisfies the part of a renamed copy.
      obtain ⟨part, hpart, rfl⟩ := (accessible_single_iff (d := .renamed m)
        (by rw [hselected]; rfl)).1 happlied
      refine ⟨[], List.eq_nil_iff_forall_not_mem.2 fun r hr => ?_, fun _ => List.nodup_nil⟩
      obtain ⟨chains, -, -, -, rfl⟩ := Select.run_eq_ok_iff.1 hrun
      obtain ⟨a, ha, -⟩ := Select.exists_of_mem_resultOf
        (by simp [Select.counts, Select.adding, hselected, Selected.isCount]) hr
      have hall := List.all_eq_true.1 (List.mem_filter.1 ha).2 .never
        (by simp [Select.adding, hpart.closed_of_renamed.1])
      simp at hall

theorem accessibleRows_of_ids
    (hrows : q.resultRows S db s = .ok (ids.map fun n => [.withId source.model n])) :
    q.accessibleRows S db s = .ok (ids.map (Field.withId source.model)) := by
  obtain ⟨applied, happlied, hrun⟩ := Success.bind_eq_ok_iff.1 hrows
  rw [accessibleRows, Success.bind_ok happlied, Success.bind_ok hrun, List.filterMap_map]
  simp [Function.comp_def, List.filterMap_eq_map']

section Checks

variable (hrows : q.resultRows S db s = .ok (ids.map fun n => [.withId source.model n]))
include hrows

theorem verdict_expectNone : Verdict (q.expectNone S db s) (ids = []) := by
  rw [expectNone, Success.bind_ok (accessibleRows_of_ids hrows)]
  constructor
  · rintro rfl
    rfl
  · intro hne
    rw [List.isEmpty_map, if_neg (by simpa using hne)]
    exact ⟨_, rfl⟩

theorem verdict_expectRows_none : Verdict (q.expectRows S db s none) (ids ≠ []) := by
  rw [expectRows, Success.bind_ok (accessibleRows_of_ids hrows)]
  constructor
  · intro hne
    rw [List.length_map, if_neg (by simpa using hne)]
  · intro hempty
    rw [not_not.1 hempty]
    exact ⟨_, rfl⟩

theorem verdict_expectRows_some (n : Int) :
    Verdict (q.expectRows S db s (some (.int n))) (1 ≤ n ∧ (ids.length : Int) = n) := by
  rw [expectRows, Success.bind_ok (accessibleRows_of_ids hrows), List.length_map]
  constructor
  · rintro ⟨hpos, hlength⟩
    have hne : ¬ (ids.length == 0) = true := by
      rw [beq_iff_eq]
      omega
    simp only [if_neg hne, if_pos (Value.equals_int_iff.2 hlength.symm)]
  · intro hnot
    by_cases hempty : (ids.length == 0) = true
    · simp only [if_pos hempty]
      exact ⟨_, rfl⟩
    · rw [beq_iff_eq] at hempty
      have hother : ¬ (Value.int n).equals (.int ids.length) = true := by
        rw [Value.equals_int_iff]
        omega
      simp only [beq_iff_eq, if_neg hempty, if_neg hother]
      exact ⟨_, rfl⟩

variable (hkey : (S.model source.model).primaryKey = ["id"])
include hkey

theorem verdict_expectIds (wanted : List Int) :
    Verdict (q.expectIds S db s (wanted.map .int)) (ids.Nodup ∧ ∀ n, n ∈ ids ↔ n ∈ wanted) := by
  have hsame : ((firstOccurrences id [] wanted).length == (firstOccurrences id [] ids).length &&
      Value.among ((firstOccurrences id [] wanted).map .int)
        ((firstOccurrences id [] ids).map .int)) = true ↔ ∀ n, n ∈ ids ↔ n ∈ wanted := by
    have hnodup := nodup_firstOccurrences_id ([] : List Int)
    rw [Bool.and_eq_true, beq_iff_eq, Value.among_int_iff,
      same_mem_iff_of_nodup (hnodup wanted) (hnodup ids)]
    simp only [mem_firstOccurrences_id_iff, List.not_mem_nil, not_false_eq_true, and_true]
    exact forall_congr' fun n => Iff.comm
  have hrepeated : ((firstOccurrences id [] ids).length != ids.length) = true ↔ ¬ ids.Nodup := by
    rw [bne_iff_ne, Ne, length_firstOccurrences_eq_iff]
  obtain ⟨_, hids⟩ := Value.exists_sorted_int ids
  obtain ⟨_, hfound⟩ := Value.exists_sorted_int (firstOccurrences id [] ids)
  obtain ⟨_, hwanted⟩ := Value.exists_sorted_int (firstOccurrences id [] wanted)
  rw [expectIds, Success.bind_ok (accessibleRows_of_ids hrows),
    Success.bind_ok (Field.mapM_id?_withId hkey ids), Value.unhashableIn?_int]
  simp only [Value.distinctValues_int, List.length_map]
  constructor
  · rintro ⟨hnodup, hmem⟩
    rw [if_neg (mt hrepeated.1 (not_not.2 hnodup)), if_pos (hsame.2 hmem)]
  · intro hnot
    by_cases hnodup : ids.Nodup
    · have hother := mt hsame.1 fun hmem => hnot ⟨hnodup, hmem⟩
      rw [if_neg (mt hrepeated.1 (not_not.2 hnodup)), if_neg hother, Success.bind_ok hwanted,
        Success.bind_ok hfound]
      exact ⟨_, rfl⟩
    · rw [if_pos (hrepeated.2 hnodup), Success.bind_ok hids]
      exact ⟨_, rfl⟩

/-- Rows without repetitions are not reported as repeated, whatever is expected. -/
theorem expectIds_ne_duplicateRows (hnodup : ids.Nodup) (expected : List Value) (shown : String) :
    q.expectIds S db s expected ≠ .error (.unmet (.duplicateRows shown)) := by
  intro herror
  rw [expectIds, Success.bind_ok (accessibleRows_of_ids hrows),
    Success.bind_ok (Field.mapM_id?_withId hkey ids)] at herror
  have hone : ¬ ((Value.distinctValues (ids.map Value.int)).length !=
      (ids.map Value.int).length) = true := by
    simpa [Value.distinctValues_int] using length_firstOccurrences_eq_iff.2 hnodup
  split at herror
  · cases herror
  · rw [if_neg hone] at herror
    split at herror
    · cases herror
    · -- A discrepancy here is about other rows, and any other fault about what has no order.
      rcases Success.bind_eq_error_iff.1 herror with hwanted | ⟨_, -, hrest⟩
      · obtain ⟨_, _, hfault⟩ := Value.sorted_error hwanted
        cases hfault
      · rcases Success.bind_eq_error_iff.1 hrest with hfound | ⟨_, -, hother⟩
        · obtain ⟨_, _, hfault⟩ := Value.sorted_error hfound
          cases hfault
        · cases hother

end Checks

open Sample in
theorem integerIds_posts : database.IntegerIds schema .post where
  key := rfl
  stored := by
    have hall : (database.rows .post).map (schema.keyCells .post) =
        [1, 2, 3, 4, 5, 6, 7, 8].map fun n => [Cell.int n] := rfl
    intro x hx
    have hmem := hall ▸ List.mem_map_of_mem (f := schema.keyCells .post) hx
    obtain ⟨n, -, hn⟩ := List.mem_map.1 hmem
    exact ⟨n, hn.symm⟩
  unique := Select.nodup_keyCells .post

end Request

end RowAccess
