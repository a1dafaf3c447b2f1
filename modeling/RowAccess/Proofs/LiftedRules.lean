import Mathlib.Data.List.Flatten
import RowAccess.Proofs.JoinedRowCounts
import RowAccess.Proofs.LargerJoinSet
import RowAccess.Proofs.RowSelection
/-!
# Rules after an unconditional one

A rule without conditions lifts the restriction, and rules after it are not compiled. But their
joins are attached like those of all rules: the relationships they name have to exist, and joins
that lead to several rows repeat the rows of the root unless repetitions are dropped.
-/

namespace RowAccess

namespace Rule

variable {M : Type} [DecidableEq M] {S : Schema M} {model : M} {joins : Option (JoinSet M)}
  {reflector : Reflector M} {position : Nat} {before : Option (Filter M)} {rules : List Rule}
  {restriction : Restriction M} {bare : Rule} {packing : Packing}

/-- A rule without conditions after rules that compile lifts the restriction. -/
theorem compileFrom_append_bare (hbare : bare.conditions = .mapping packing [])
    (h : compileFrom S model joins reflector position before rules = .ok restriction) :
    ∃ n r, compileFrom S model joins reflector position before (rules ++ [bare]) =
      .ok (.lifted n r) := by
  induction rules generalizing position before with
  | nil =>
      have hnone : bare.filter? S model joins reflector = .ok none := by
        rw [filter?, hbare]
        rfl
      refine ⟨position, bare, ?_⟩
      rw [List.nil_append, compileFrom, Success.bind_ok hnone]
  | cons rule rules ih =>
      obtain ⟨found, hfound, hrest⟩ := Success.bind_eq_ok_iff.1 h
      rw [List.cons_append, compileFrom, Success.bind_ok hfound]
      cases found with
      | none => exact ⟨position, rule, rfl⟩
      | some filter => exact ih hrest

end Rule

namespace JoinSet

variable {M : Type} {S : Schema M} {statement : Select M} {model : M} {rules later : List Rule}
  {reflector : Reflector M} {joins large : JoinSet M}

/-- The joins of later rules come after those of the rules before them. -/
theorem joins_initial_joinsFor
    (hjoins : statement.joinsFor S model rules reflector = (joins, none))
    (hlarge : statement.joinsFor S model (rules ++ later) reflector = (large, none)) :
    joins.joins <+: large.joins := by
  have hscope : joins.scope = large.scope := by
    rw [(joinsFor_frame hjoins).2.1, (joinsFor_frame hlarge).2.1]
  obtain ⟨more, hmore⟩ : joins.joined <+: large.joined := by
    have hinitial := joined_initial_addAll (S := S)
      (later.flatMap fun rule => rule.conditions.joinPaths) joins
    rwa [← joinsFor_append hjoins, hlarge] at hinitial
  refine ⟨more.map fun j => ⟨large.parentOf j, j.relationship, large.sourceOf j⟩, ?_⟩
  simp only [JoinSet.joins, parentOf, sourceOf, hscope, ← hmore, List.map_append]

/-- However much later rules join, they are not compiled when the restriction is lifted before. -/
theorem compile_append_of_lifted [DecidableEq M] {n : Nat} {r : Rule}
    (hjoins : statement.joinsFor S model rules reflector = (joins, none))
    (hlifted : Rule.compile S model rules (some joins) reflector = .ok (.lifted n r))
    (hlarge : statement.joinsFor S model (rules ++ later) reflector = (large, none)) :
    Rule.compile S model (rules ++ later) (some large) reflector = .ok (.lifted n r) := by
  have hwithin := within_joinsFor hjoins hlarge (by simp)
  have hkeeps : Position.Keeps joins large := fun _ _ =>
    hwithin.sourceFor (sound_joinsFor hjoins) (sound_joinsFor hlarge)
  exact Rule.compileFrom_append_of_lifted (Rule.compileFrom_keeps hkeeps hlifted)

end JoinSet

theorem length_flatMap_of_single {α β : Type} {f : α → List β} {xs : List α}
    (h : ∀ x ∈ xs, (f x).length = 1) : (xs.flatMap f).length = xs.length := by
  rw [List.length_flatMap, List.map_congr_left h, List.map_const', List.sum_replicate_nat,
    Nat.mul_one]

namespace Select

variable {M : Type} [DecidableEq M] {S : Schema M} {db : Database M} {s t : Select M}
  {root : Source M} {x : Row}

/-- Without conditions a row is left at least once. -/
theorem ways_pos (hs : s.conditions = []) : 0 < s.ways db root x := by
  simp only [ways, completions, hs, List.all_nil, List.filter_true]
  exact List.length_pos_of_ne_nil (db.extendByAll_ne_nil _ _)

/-- Further joins leave a row at least as often, and just as often if they lead to one related row
at most. -/
theorem ways_of_more_joins (root : Source M) {more : List (Join M)} (hs : s.conditions = [])
    (ht : t.conditions = []) (hjoins : t.joins = s.joins ++ more)
    (hmodels : ∀ j ∈ t.joins, j.target.model = j.relationship.target)
    (hx : x ∈ db.rows root.model) :
    s.ways db root x ≤ t.ways db root x ∧
      ((∀ j ∈ more, db.ToOne j) → t.ways db root x = s.ways db root x) := by
  have happend : db.joinedRows root t.joins x =
      (db.joinedRows root s.joins x).flatMap (db.extendByAll more) := by
    rw [hjoins, Database.joinedRows, Database.extendByAll_append, Database.joinedRows]
  simp only [ways, completions, hs, ht, List.all_nil, List.filter_true, happend]
  rw [hjoins, List.forall_mem_append] at hmodels
  refine ⟨?_, fun hone => length_flatMap_of_single fun a ha => ?_⟩
  · -- One of the rows that each row is continued by stands for it.
    have hfirst : ∀ a, ((db.extendByAll more a).take 1).length = 1 := by
      intro a
      have hpos := List.length_pos_of_ne_nil (db.extendByAll_ne_nil more a)
      rw [List.length_take]
      omega
    calc (db.joinedRows root s.joins x).length
      _ = ((db.joinedRows root s.joins x).flatMap fun a => (db.extendByAll more a).take 1).length :=
          (length_flatMap_of_single fun a _ => hfirst a).symm
      _ ≤ ((db.joinedRows root s.joins x).flatMap (db.extendByAll more)).length :=
          (List.Sublist.flatMap_right _ fun a _ => List.take_sublist 1 _).length_le
  · exact Database.length_extendByAll_of_toOne hmodels.2 hone
      ((Database.stored_root hx).extendByAll hmodels.1 ha)

variable {model : M} {rules : List Rule} {bare : Rule} {packing : Packing}
  {reflector : Reflector M} {distinct : Bool} {joins : JoinSet M} {applied : Select M}

theorem order_applyRules
    (happlied : s.applyRules S model rules reflector distinct = .ok applied) :
    applied.order = s.order := by
  obtain ⟨joins, restriction, -, -, rfl⟩ := applyRules_eq_ok_iff.1 happlied
  rfl

/-- When the restriction is lifted, the statement is left without conditions and can be run. -/
theorem onRoot_applyRules_lifted {n : Nat} {r : Rule}
    (hjoins : (ofModel model).joinsFor S model rules reflector = (joins, none))
    (hcompile : Rule.compile S model rules (some joins) reflector = .ok (.lifted n r))
    (happlied : applyRules S (ofModel model) model rules reflector distinct = .ok applied) :
    OnRoot S applied joins ∧ joins.model = model ∧ applied.conditions = [] ∧
      applied.distinct = distinct ∧ ∀ db, ∃ rows, applied.run S db = .ok rows := by
  obtain ⟨joins', restriction, hjoins', hcompile', hroot, hmodel, hconditions, hdistinct⟩ :=
    onRoot_applyRules (by simp) happlied
  obtain ⟨rfl, -⟩ := Prod.mk.inj (hjoins.symm.trans hjoins')
  obtain rfl := Except.ok.inj (hcompile.symm.trans hcompile')
  have hnone : applied.conditions = [] := hconditions
  refine ⟨hroot, hmodel, hnone, hdistinct, fun db => (hroot.run_ok_iff db).2 (.inr ?_)⟩
  simp [hnone]

/-- Without conditions every row is listed. -/
theorem OnRoot.mem_run_of_nil (h : s.OnRoot S joins) (hs : s.conditions = [])
    {rows : List (List (Field M))} (hrows : s.run S db = .ok rows) {r : List (Field M)} :
    r ∈ rows ↔ ∃ x ∈ db.rows joins.model, S.resultRow joins.model x = r := by
  rw [h.mem_run hrows, hs]
  refine exists_congr fun x => and_congr_right fun _ => and_iff_right ?_
  obtain ⟨a, ha, hrespects⟩ := h.sound.exists_completion db x
  exact ⟨a, ha, hrespects, by simp⟩

/-- Without conditions or repetitions it does not matter what is joined. -/
theorem OnRoot.run_distinct_of_nil (h : s.OnRoot S joins) (hs : s.conditions = [])
    (horder : s.order = []) (hdistinct : s.distinct = true) {rows : List (List (Field M))}
    (hrows : s.run S db = .ok rows) :
    rows = (firstOccurrences (S.rowCells joins.model) [] (db.rows joins.model)).map
      (S.resultRow joins.model) := by
  have hall : ((db.rows joins.model).filter fun x =>
      decide (0 < s.ways db (.own joins.model) x)) = db.rows joins.model :=
    List.filter_eq_self.2 fun x _ => by simp [ways_pos hs]
  rw [h.run_distinct horder hdistinct hrows, hall]

/-- Two statements on one root without conditions, the second with more joins. -/
theorem OnRoot.run_of_more_joins {joins' : JoinSet M} {old new : List (List (Field M))}
    (h : s.OnRoot S joins) (h' : t.OnRoot S joins') (hmodel : joins'.model = joins.model)
    (hinitial : joins.joins <+: joins'.joins) (hs : s.conditions = []) (ht : t.conditions = [])
    (hsorder : s.order = []) (htorder : t.order = []) (hdistinct : s.distinct = t.distinct)
    (hold : s.run S db = .ok old) (hnew : t.run S db = .ok new) :
    (∀ r, r ∈ new ↔ r ∈ old) ∧ (t.distinct = true → new = old) ∧
      (t.distinct = false → old.Sublist new ∧
        ((∀ j ∈ t.joins, j ∉ s.joins → db.ToOne j) → new = old)) := by
  refine ⟨fun r => ?_, fun hdrop => ?_, fun hkeep => ?_⟩
  · rw [h.mem_run_of_nil hs hold, h'.mem_run_of_nil ht hnew, hmodel]
  · rw [h.run_distinct_of_nil hs hsorder (hdistinct.trans hdrop) hold,
      h'.run_distinct_of_nil ht htorder hdrop hnew, hmodel]
  · obtain ⟨more, hmore⟩ := hinitial
    rw [← h.attached, ← h'.attached] at hmore
    have hways : ∀ x ∈ db.rows joins.model, _ := fun x hx =>
      ways_of_more_joins (.own joins.model) hs ht hmore.symm h'.target_model hx
    rw [h.run_repeated hsorder (hdistinct.trans hkeep) hold, h'.run_repeated htorder hkeep hnew,
      hmodel]
    refine ⟨.flatMap_right _ fun x hx => (List.replicate_sublist_replicate _).2 (hways x hx).1,
      fun hone => ?_⟩
    have hfresh : ∀ j ∈ more, db.ToOne j := by
      intro j hj
      refine hone j (hmore ▸ List.mem_append_right _ hj) fun hold => ?_
      have hnodup := h'.linked.nodup_targets
      rw [← hmore, List.map_append, List.nodup_append] at hnodup
      exact hnodup.2.2 _ (List.mem_map_of_mem hold) _ (List.mem_map_of_mem hj) rfl
    exact List.flatMap_congr fun x hx => by rw [(hways x hx).2 hfresh]

/-- Rules up to one without conditions, and all rules, applied to a statement on a model. If the
rules before can be applied, so can those up to the one without conditions; all rules can be applied
exactly if the relationships that the later ones name exist. Either way nothing is filtered, and the
same rows are returned. Without repetitions the results are equal. With repetitions the later rules
can only repeat rows more often, and they do not if the relationships joined for them alone lead to
one row at most. -/
theorem run_applyRules_lifted {lone : Select M} (later : List Rule) (db : Database M)
    (hbare : bare.conditions = .mapping packing [])
    (hlone : applyRules S (ofModel model) model rules reflector distinct = .ok lone) :
    ∃ first, applyRules S (ofModel model) model (rules ++ [bare]) reflector distinct = .ok first ∧
      ((∃ second, applyRules S (ofModel model) model (rules ++ bare :: later) reflector distinct =
        .ok second) ↔ ∀ rule ∈ later, rule.Joinable S model) ∧
      ∀ second, applyRules S (ofModel model) model (rules ++ bare :: later) reflector distinct =
          .ok second →
        first.conditions = [] ∧ second.conditions = [] ∧
        ∃ old new, first.run S db = .ok old ∧ second.run S db = .ok new ∧
          (∀ r, r ∈ new ↔ r ∈ old) ∧ (distinct = true → new = old) ∧
          (distinct = false → old.Sublist new ∧
            ((∀ j ∈ second.joins, j ∉ first.joins → db.ToOne j) → new = old)) := by
  obtain ⟨joins, restriction, hjoins, hcompile, -⟩ := applyRules_eq_ok_iff.1 hlone
  have hfirstJoins : joinsFor S (ofModel model) model (rules ++ [bare]) reflector =
      (joins, none) := by
    rw [JoinSet.joinsFor_append hjoins]
    simp [hbare, Value.joinPaths, Value.joinPathsOfEntries, JoinSet.addAll]
  obtain ⟨n, r, hlifted⟩ := Rule.compileFrom_append_bare hbare hcompile
  have hfirst : applyRules S (ofModel model) model (rules ++ [bare]) reflector distinct = .ok _ :=
    applyRules_eq_ok_iff.2 ⟨joins, .lifted n r, hfirstJoins, hlifted, rfl⟩
  rw [List.append_cons rules bare later]
  refine ⟨_, hfirst, ⟨?_, fun hlater => ?_⟩, fun second hsecond => ?_⟩
  · rintro ⟨second, hsecond⟩
    obtain ⟨large, -, hlarge, -, -⟩ := applyRules_eq_ok_iff.1 hsecond
    have hall := JoinSet.joinsFor_eq_none_iff.1 ⟨large, hlarge⟩
    exact fun rule hrule => hall rule (by simp [hrule])
  · obtain ⟨large, hlarge⟩ : ∃ large, joinsFor S (ofModel model) model (rules ++ [bare] ++ later)
        reflector = (large, none) := by
      rw [JoinSet.joinsFor_eq_none_iff, List.forall_mem_append]
      exact ⟨JoinSet.joinsFor_eq_none_iff.1 ⟨joins, hfirstJoins⟩, hlater⟩
    exact ⟨_, applyRules_eq_ok_iff.2 ⟨large, _, hlarge,
      JoinSet.compile_append_of_lifted hfirstJoins hlifted hlarge, rfl⟩⟩
  · obtain ⟨large, -, hlarge, -, -⟩ := applyRules_eq_ok_iff.1 hsecond
    obtain ⟨hroot, hmodel, hconditions, hdistinct, hruns⟩ :=
      onRoot_applyRules_lifted hfirstJoins hlifted hfirst
    obtain ⟨hroot', hmodel', hconditions', hdistinct', hruns'⟩ :=
      onRoot_applyRules_lifted hlarge
        (JoinSet.compile_append_of_lifted hfirstJoins hlifted hlarge) hsecond
    have hinitial := JoinSet.joins_initial_joinsFor hfirstJoins hlarge
    obtain ⟨old, hold⟩ := hruns db
    obtain ⟨new, hnew⟩ := hruns' db
    refine ⟨hconditions, hconditions', old, new, hold, hnew, ?_⟩
    have hrows := hroot.run_of_more_joins hroot' (hmodel'.trans hmodel.symm) hinitial hconditions
      hconditions' (order_applyRules hfirst) (order_applyRules hsecond)
      (hdistinct.trans hdistinct'.symm) hold hnew
    rwa [hdistinct'] at hrows

open Sample in
/-- A rule about comments after one that allows every post: the comments are joined, and every post
is returned once. -/
theorem run_applyRules_lifted_posts :
    let published : Rule := ⟨.bool true, .plain [(.text "is_published", .bool true)], ""⟩
    let every : Rule := ⟨.bool true, .plain [], ""⟩
    let flagged : Rule :=
      ⟨.bool false, .plain [(.text "comments", .plain [(.text "flagged", .bool true)])], ""⟩
    ∃ first second rows,
      applyRules schema (ofModel .post) .post ([published] ++ [every]) {} true = .ok first ∧
      applyRules schema (ofModel .post) .post ([published] ++ every :: [flagged]) {} true =
        .ok second ∧
      first.run schema database = .ok rows ∧ second.run schema database = .ok rows := by
  intro published every flagged
  have hlone : applyRules schema (ofModel .post) .post [published] {} true = .ok _ := rfl
  have hbare : every.conditions = .mapping _ [] := rfl
  obtain ⟨first, hfirst, hjoinable, hrows⟩ := run_applyRules_lifted [flagged] database hbare hlone
  have hlater : ∃ joins,
      joinsFor schema (ofModel .post) .post [flagged] {} = (joins, none) := ⟨_, rfl⟩
  obtain ⟨second, hsecond⟩ := hjoinable.2 (JoinSet.joinsFor_eq_none_iff.1 hlater)
  obtain ⟨-, -, old, new, hold, hnew, -, hdrop, -⟩ := hrows second hsecond
  exact ⟨first, second, old, hfirst, hsecond, hold, hdrop rfl ▸ hnew⟩

open Sample in
/-- After a rule that allows every post, one about a relationship that posts do not have makes the
whole application fail, and one about comments repeats the posts that have several. -/
theorem later_rules_consulted :
    let every : Rule := ⟨.bool true, .plain [], ""⟩
    let edited : Rule :=
      ⟨.bool true, .plain [(.text "editor", .plain [(.text "id", .int 1)])], ""⟩
    let flagged : Rule :=
      ⟨.bool true, .plain [(.text "comments", .plain [(.text "flagged", .bool true)])], ""⟩
    let posts (keys : List Int) : List (List (Field Entity)) :=
      keys.map fun key => [.row .post [.int key]]
    (∃ first, applyRules schema (ofModel .post) .post [every] {} true = .ok first) ∧
      applyRules schema (ofModel .post) .post [every, edited] {} true =
        .error (.noRelationship "Post" (.text "editor")) ∧
      ∃ first second,
        applyRules schema (ofModel .post) .post [every] {} false = .ok first ∧
        applyRules schema (ofModel .post) .post [every, flagged] {} false = .ok second ∧
        first.run schema database = .ok (posts [1, 2, 3, 4, 5, 6, 7, 8]) ∧
        second.run schema database = .ok (posts [1, 1, 1, 2, 3, 4, 5, 6, 6, 7, 8]) :=
  ⟨⟨_, rfl⟩, rfl, _, _, rfl, rfl, rfl, rfl⟩

end Select

end RowAccess
