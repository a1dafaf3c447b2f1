import RowAccess.Proofs.JoinOrder
import RowAccess.Proofs.LiftedRules
/-!
# Rules and keys in another order

The keys of a mapping are conditions that all have to hold, and neighbouring rules that all allow,
or that all deny, are put together by the same connective. So neither order matters: other joins
come first, other sources are read and another filter is built, but the same rows are returned. The
first rule is no exception, although it decides by its kind what the fold starts from.
-/

namespace RowAccess

/-- A tree of conditions becomes another one when the keys of a mapping in it, at any depth, change
places. -/
inductive Value.Reordered : Value → Value → Prop
  | keys {packing : Packing} {entries entries' : List (Value × Value)}
      (hperm : entries.Perm entries') :
      Reordered (.mapping packing entries) (.mapping packing entries')
  | within {packing : Packing} (before after : List (Value × Value)) {key tree tree' : Value}
      (htree : Reordered tree tree') :
      Reordered (.mapping packing (before ++ (key, tree) :: after))
        (.mapping packing (before ++ (key, tree') :: after))

/-- A list of rules becomes another one when keys in the conditions of its rules change places, or
neighbouring rules of one kind do. -/
inductive Rule.Rearranged : List Rule → List Rule → Prop
  | refl (rules : List Rule) : Rearranged rules rules
  | keys (before after : List Rule) {rule : Rule} {conditions : Value}
      (hconditions : rule.conditions.Reordered conditions) :
      Rearranged (before ++ rule :: after)
        (before ++ { rule with conditions := conditions } :: after)
  | block (before after : List Rule) {block block' : List Rule} (hperm : block.Perm block')
      (hkind : ∀ r ∈ block, ∀ r' ∈ block, r.allows = r'.allows) :
      Rearranged (before ++ block ++ after) (before ++ block' ++ after)
  | trans {first second third : List Rule} (hfirst : Rearranged first second)
      (hsecond : Rearranged second third) : Rearranged first third

/-! ## Trees -/

namespace Value.Reordered

variable {tree tree' : Value}

theorem symm (h : tree.Reordered tree') : tree'.Reordered tree := by
  induction h with
  | keys hperm => exact .keys hperm.symm
  | within before after _ ih => exact .within before after ih

theorem isMapping_eq_true (h : tree.Reordered tree') : tree.isMapping = true := by
  cases h <;> rfl

theorem truthy_eq (h : tree.Reordered tree') : tree.truthy = tree'.truthy := by
  cases h with
  | keys hperm => rw [truthy, truthy, hperm.isEmpty_eq]
  | within before => cases before <;> rfl

theorem mem_joinPaths (h : tree.Reordered tree') {keys : List Value}
    (hkeys : keys ∈ tree.joinPaths) : keys ∈ tree'.joinPaths := by
  induction h generalizing keys with
  | keys hperm =>
      rw [joinPaths, mem_joinPathsOfEntries] at hkeys ⊢
      obtain ⟨key, value, rest, hentry, hrest⟩ := hkeys
      exact ⟨key, value, rest, hperm.mem_iff.1 hentry, hrest⟩
  | @within packing before after key tree tree' htree ih =>
      rw [joinPaths, mem_joinPathsOfEntries] at hkeys ⊢
      obtain ⟨k, value, rest, hentry, hmapping, rfl, hrest⟩ := hkeys
      by_cases hk : (k, value) = (key, tree)
      · obtain ⟨rfl, rfl⟩ := Prod.mk.inj hk
        exact ⟨k, tree', rest, by simp, htree.symm.isMapping_eq_true, rfl, hrest.imp_right ih⟩
      · refine ⟨k, value, rest, ?_, hmapping, rfl, hrest⟩
        simp only [List.mem_append, List.mem_cons, hk, false_or] at hentry ⊢
        exact hentry.imp_right .inr

theorem nestedAt (h : tree.Reordered tree') {path : JoinPath} (hnested : tree.NestedAt path) :
    tree'.NestedAt path := by
  obtain ⟨keys, hkeys, hpath⟩ := exists_joinPaths_iff.2 hnested
  exact exists_joinPaths_iff.1 ⟨keys, h.mem_joinPaths hkeys, hpath⟩

end Value.Reordered

/-! ## What trees compile to -/

namespace Position

variable {M : Type} [DecidableEq M] {S : Schema M} {comparator : Comparator} {P : Filter M → Prop}
  {p : Position M}

/-- A tree compiles to a filter that has a property. -/
def Builds (S : Schema M) (comparator : Comparator) (P : Filter M → Prop) (p : Position M)
    (tree : Value) : Prop :=
  ∃ packing entries filter, tree = .mapping packing entries ∧
    p.node S comparator packing entries = .ok filter ∧ P filter

/-- A tree compiles if it is not empty and each of its entries does, whatever their order. -/
theorem builds_mapping_iff (hboth : ∀ left right, P (.both left right) ↔ P left ∧ P right)
    {packing : Packing} {entries : List (Value × Value)} :
    p.Builds S comparator P (.mapping packing entries) ↔ entries ≠ [] ∧ ∀ entry ∈ entries,
      ∃ filter, comparison S comparator p entry.1 entry.2 = .ok filter ∧ P filter := by
  rw [← Success.exists_mapM_iff, ← comparisons_eq_mapM]
  constructor
  · rintro ⟨packing, entries, filter, heq, hfilter, hP⟩
    obtain ⟨rfl, rfl⟩ := Value.mapping.inj heq
    obtain ⟨filters, hfilters, hall⟩ := Success.bind_eq_ok_iff.1 hfilter
    refine ⟨?_, filters, hfilters, (conjunction_iff hboth hall).1 hP⟩
    rintro rfl
    cases hfilters
    cases hall
  · rintro ⟨hne, filters, hfilters, hP⟩
    cases filters with
    | nil =>
        rw [comparisons_eq_mapM, Success.mapM_eq_ok_iff, List.forall₂_nil_right_iff] at hfilters
        exact absurd hfilters hne
    | cons first rest =>
        exact ⟨packing, entries, _, rfl, Success.bind_eq_ok_iff.2 ⟨_, hfilters, rfl⟩,
          (all_iff hboth first rest).2 hP⟩

theorem exists_comparison_iff {key tree : Value} (htree : tree.isMapping = true) :
    (∃ filter, comparison S comparator p key tree = .ok filter ∧ P filter) ↔
      ∃ child, p.descend S key = .ok child ∧ child.Builds S comparator P tree := by
  obtain ⟨packing, entries, rfl⟩ := Value.isMapping_iff.1 htree
  rw [comparison]
  cases hkey : key.text? with
  | none =>
      simp only [reduceCtorEq, false_and, exists_false, false_iff, not_exists, not_and]
      intro child hchild
      obtain ⟨name, -, -, hname, -⟩ := descend_eq_ok_iff.1 hchild
      rw [hkey] at hname
      cases hname
  | some name =>
      constructor
      · rintro ⟨filter, hfilter, hP⟩
        obtain ⟨child, hchild, hnode⟩ := Success.bind_eq_ok_iff.1 hfilter
        exact ⟨child, hchild, packing, entries, filter, rfl, hnode, hP⟩
      · rintro ⟨child, hchild, packing, entries, filter, heq, hnode, hP⟩
        obtain ⟨rfl, rfl⟩ := Value.mapping.inj heq
        exact ⟨filter, Success.bind_eq_ok_iff.2 ⟨child, hchild, hnode⟩, hP⟩

theorem Builds.reordered (hboth : ∀ left right, P (.both left right) ↔ P left ∧ P right)
    {tree tree' : Value} (htree : tree.Reordered tree') (h : p.Builds S comparator P tree) :
    p.Builds S comparator P tree' := by
  induction htree generalizing p with
  | keys hperm =>
      obtain ⟨hne, hentries⟩ := (builds_mapping_iff hboth).1 h
      refine (builds_mapping_iff hboth).2 ⟨fun hempty => hne ?_, fun entry hentry =>
        hentries entry (hperm.mem_iff.2 hentry)⟩
      exact (hempty ▸ hperm).eq_nil
  | within before after htree ih =>
      obtain ⟨-, hentries⟩ := (builds_mapping_iff hboth).1 h
      refine (builds_mapping_iff hboth).2 ⟨by simp, ?_⟩
      rw [List.forall_mem_append, List.forall_mem_cons] at hentries ⊢
      obtain ⟨child, hchild, hbuilds⟩ :=
        (exists_comparison_iff htree.isMapping_eq_true).1 hentries.2.1
      exact ⟨hentries.1, (exists_comparison_iff htree.symm.isMapping_eq_true).2
        ⟨child, hchild, ih hbuilds⟩, hentries.2.2⟩

end Position

namespace Rule

/-- A property of rules that does not depend on the order of the keys in their conditions. -/
def OrderFree (t : Rule → Prop) : Prop :=
  ∀ rule conditions, rule.conditions.Reordered conditions →
    t rule → t { rule with conditions := conditions }

theorem OrderFree.iff {t : Rule → Prop} (ht : OrderFree t) {rule : Rule} {conditions : Value}
    (h : rule.conditions.Reordered conditions) :
    t rule ↔ t { rule with conditions := conditions } :=
  ⟨ht rule conditions h, ht { rule with conditions := conditions } rule.conditions h.symm⟩

theorem orderFree_unconditional : OrderFree fun rule => rule.unconditional = false := by
  intro rule conditions h
  simp only [unconditional, h.truthy_eq, imp_self]

theorem orderFree_nestedAt (path : JoinPath) :
    OrderFree fun rule => rule.conditions.NestedAt path :=
  fun _ _ h => h.nestedAt

theorem orderFree_joinable {M : Type} (S : Schema M) (model : M) : OrderFree (Joinable S model) :=
  fun _ _ h hjoinable keys hkeys => hjoinable keys (h.symm.mem_joinPaths hkeys)

variable {M : Type} [DecidableEq M] {S : Schema M} {model : M} {joins : Option (JoinSet M)}
  {reflector : Reflector M}

theorem exists_filter?_iff {P : Filter M → Prop} {rule : Rule} :
    (∃ filter, rule.filter? S model joins reflector = .ok (some filter) ∧ P filter) ↔
      (Position.root model joins reflector).Builds S rule.comparator P rule.conditions := by
  constructor
  · rintro ⟨filter, hfilter, hP⟩
    obtain ⟨-, packing, entries, filters, hconditions, hfilters, hall⟩ := filter?_eq_some hfilter
    exact ⟨packing, entries, filter, hconditions,
      Success.bind_eq_ok_iff.2 ⟨filters, hfilters, hall⟩, hP⟩
  · rintro ⟨packing, entries, filter, hconditions, hfilter, hP⟩
    have hentries : entries.isEmpty = false := by
      cases entries with
      | nil => cases hfilter
      | cons entry entries => rfl
    refine ⟨filter, ?_, hP⟩
    simp only [filter?, hconditions, hentries, Bool.false_eq_true, if_false]
    rw [hfilter]
    rfl

theorem orderFree_filter? {P : Filter M → Prop}
    (hboth : ∀ left right, P (.both left right) ↔ P left ∧ P right) :
    OrderFree fun rule =>
      ∃ filter, rule.filter? S model joins reflector = .ok (some filter) ∧ P filter :=
  fun _ _ h hfilter => exists_filter?_iff.2 ((exists_filter?_iff.1 hfilter).reordered hboth h)

/-! ## Lists of rules -/

namespace Rearranged

variable {rules rules' : List Rule} {t : Rule → Prop}

theorem symm (h : Rearranged rules rules') : Rearranged rules' rules := by
  induction h with
  | refl rules => exact .refl rules
  | keys before after hconditions => exact .keys before after hconditions.symm
  | block before after hperm hkind =>
      exact .block before after hperm.symm fun r hr r' hr' =>
        hkind r (hperm.mem_iff.2 hr) r' (hperm.mem_iff.2 hr')
  | trans _ _ ihfirst ihsecond => exact ihsecond.trans ihfirst

theorem forall_iff (h : Rearranged rules rules') (ht : OrderFree t) :
    (∀ rule ∈ rules, t rule) ↔ ∀ rule ∈ rules', t rule := by
  induction h with
  | refl rules => exact Iff.rfl
  | keys _ _ hconditions =>
      simp only [List.forall_mem_append, List.forall_mem_cons, ht.iff hconditions]
  | block _ _ hperm _ => simp only [List.forall_mem_append, hperm.mem_iff]
  | trans _ _ ihfirst ihsecond => exact ihfirst.trans ihsecond

theorem exists_iff (h : Rearranged rules rules') (ht : OrderFree t) :
    (∃ rule ∈ rules, t rule) ↔ ∃ rule ∈ rules', t rule := by
  have hnone : OrderFree fun rule => ¬ t rule := fun _ _ hkeys => mt (ht.iff hkeys).2
  simpa using not_congr (h.forall_iff hnone)

end Rearranged

/-- What the fold of rules starts from: the truth that the first rule leaves as it is. -/
def startTruth : List Rule → Prop
  | [] => True
  | first :: _ => first.allows = false

theorem foldTruth_eq_foldl (t : Rule → Prop) (rules : List Rule) :
    foldTruth t rules =
      rules.foldl (fun before rule => rule.extendTruth before (t rule)) (startTruth rules) := by
  cases rules with
  | nil => rfl
  | cons first rest =>
      rw [foldTruth, List.foldl_cons, startTruth]
      congr 1
      cases hallows : first.allows <;> simp [extendTruth, hallows]

/-- Rules of one kind extend a truth in any order. -/
theorem extendTruth_right_comm {first second : Rule} (h : first.allows = second.allows)
    (before truth truth' : Prop) :
    second.extendTruth (first.extendTruth before truth) truth' =
      first.extendTruth (second.extendTruth before truth') truth := by
  unfold extendTruth
  rw [h]
  cases second.allows with
  | true => exact propext or_right_comm
  | false => exact propext and_right_comm

namespace Rearranged

variable {rules rules' : List Rule} {t : Rule → Prop}

theorem startTruth_eq (h : Rearranged rules rules') : startTruth rules = startTruth rules' := by
  induction h with
  | refl rules => rfl
  | keys before => cases before <;> rfl
  | @block before after block block' hperm hkind =>
      cases before with
      | cons first before => rfl
      | nil =>
          cases block with
          | nil => rw [hperm.nil_eq]
          | cons first block =>
              cases block' with
              | nil => exact absurd hperm.eq_nil (by simp)
              | cons first' block' =>
                  have hsame := hkind first (by simp) first' (hperm.mem_iff.2 (by simp))
                  simp only [List.nil_append, List.cons_append, startTruth, hsame]
  | trans _ _ ihfirst ihsecond => exact ihfirst.trans ihsecond

theorem foldl_eq (h : Rearranged rules rules') (ht : OrderFree t) (before : Prop) :
    rules.foldl (fun before rule => rule.extendTruth before (t rule)) before =
      rules'.foldl (fun before rule => rule.extendTruth before (t rule)) before := by
  induction h generalizing before with
  | refl rules => rfl
  | keys _ _ hconditions =>
      simp only [List.foldl_append, List.foldl_cons, ht.iff hconditions]
      rfl
  | block _ _ hperm hkind =>
      simp only [List.foldl_append]
      congr 1
      apply hperm.foldl_eq'
      intro r hr r' hr' before
      exact extendTruth_right_comm (hkind r hr r' hr') _ _ _
  | trans _ _ ihfirst ihsecond => exact (ihfirst before).trans (ihsecond before)

/-- The fold over rules is the same in every order that keeps the kinds in place. -/
theorem foldTruth_eq (h : Rearranged rules rules') (ht : OrderFree t) :
    foldTruth t rules = foldTruth t rules' := by
  rw [foldTruth_eq_foldl, foldTruth_eq_foldl, h.startTruth_eq, h.foldl_eq ht]

end Rearranged

/-! ## What lists of rules compile to -/

/-- Rules that all have conditions compile if each of them does. -/
theorem exists_compileFrom_iff {rules : List Rule} {position : Nat} {before : Option (Filter M)}
    (hconditional : ∀ rule ∈ rules, rule.unconditional = false) :
    (∃ restriction, compileFrom S model joins reflector position before rules = .ok restriction) ↔
      ∀ rule ∈ rules,
        ∃ filter, rule.filter? S model joins reflector = .ok (some filter) ∧ True := by
  induction rules generalizing position before with
  | nil => exact iff_of_true ⟨_, rfl⟩ (by simp)
  | cons rule rules ih =>
      rw [List.forall_mem_cons] at hconditional ⊢
      rw [compileFrom]
      cases hfilter : rule.filter? S model joins reflector with
      | error fault => simp [bind, Except.bind]
      | ok found =>
          cases found with
          | none =>
              rw [filter?_eq_none hfilter] at hconditional
              cases hconditional.1
          | some filter => simpa [bind, Except.bind] using ih hconditional.2

end Rule

namespace Restriction

variable {M : Type} [DecidableEq M] {S : Schema M} {model : M} {joins : Option (JoinSet M)}
  {reflector : Reflector M} {rules : List Rule} {restriction : Restriction M}

theorem holds_iff_foldTruth (hconditional : ∀ rule ∈ rules, rule.unconditional = false)
    (h : Rule.compile S model rules joins reflector = .ok restriction) (a : Assignment M) :
    (∀ f ∈ restriction.filter?.toList, f.holds a = true) ↔
      Rule.foldTruth (Rule.Keeps S model joins reflector a) rules := by
  cases rules with
  | nil =>
      cases h
      simp [filter?, Rule.foldTruth]
  | cons rule rules =>
      obtain ⟨f, rfl⟩ := Rule.exists_filtered h hconditional (.inr (by simp))
      simpa [filter?] using Rule.compile_holds h

theorem checkValues_iff_forall (hconditional : ∀ rule ∈ rules, rule.unconditional = false)
    (h : Rule.compile S model rules joins reflector = .ok restriction) :
    (∀ f ∈ restriction.filter?.toList, f.checkValues = .ok ()) ↔ ∀ rule ∈ rules,
      ∃ filter, rule.filter? S model joins reflector = .ok (some filter) ∧
        filter.checkValues = .ok () := by
  cases rules with
  | nil =>
      cases h
      simp [filter?]
  | cons rule rules =>
      obtain ⟨f, rfl⟩ := Rule.exists_filtered h hconditional (.inr (by simp))
      simpa [filter?] using Rule.compileFrom_iff (P := fun f => f.checkValues = .ok ())
        Filter.checkValues_both Filter.checkValues_either h

end Restriction

/-! ## Statements -/

namespace JoinSet

variable {M : Type} {S : Schema M} {statement : Select M} {model : M} {rules rules' : List Rule}
  {reflector : Reflector M} {joins joins' : JoinSet M}

/-- Rules in another order need the same joins, in some order, and find the same joined. -/
theorem joinsFor_of_rearranged (h : Rule.Rearranged rules rules')
    (hjoins : statement.joinsFor S model rules reflector = (joins, none))
    (hjoins' : statement.joinsFor S model rules' reflector = (joins', none)) :
    joins.joins.Perm joins'.joins ∧ Position.Keeps joins joins' := by
  obtain ⟨hmodel, hscope, -⟩ := joinsFor_frame hjoins
  obtain ⟨hmodel', hscope', -⟩ := joinsFor_frame hjoins'
  have hsound := sound_joinsFor hjoins
  have hsound' := sound_joinsFor hjoins'
  have hpaths : ∀ path, path ∈ joins.paths ↔ path ∈ joins'.paths := by
    intro path
    rw [mem_paths_joinsFor hjoins, mem_paths_joinsFor hjoins']
    exact h.exists_iff (Rule.orderFree_nestedAt path)
  have hsame : joins.model = joins'.model := hmodel.trans hmodel'.symm
  have hsameScope : joins.scope = joins'.scope := hscope.trans hscope'.symm
  have hwithin := Within.of_paths hsound hsound' hsame hsameScope fun path => (hpaths path).1
  exact ⟨joins_perm hsound hsound' hsame hsameScope hpaths,
    fun path source => hwithin.sourceFor hsound hsound'⟩

end JoinSet

namespace Select

variable {M : Type} [DecidableEq M] {S : Schema M} {model : M} {rules rules' : List Rule}
  {reflector : Reflector M} {distinct : Bool} {statement applied applied' : Select M}

/-- Rules that can be applied can be applied in another order. -/
theorem exists_applyRules_of_rearranged (h : Rule.Rearranged rules rules')
    (hconditional : ∀ rule ∈ rules, rule.unconditional = false)
    (happlied : statement.applyRules S model rules reflector distinct = .ok applied) :
    ∃ applied', statement.applyRules S model rules' reflector distinct = .ok applied' := by
  obtain ⟨joins, restriction, hjoins, hcompile, -⟩ := applyRules_eq_ok_iff.1 happlied
  obtain ⟨joins', hjoins'⟩ := JoinSet.joinsFor_eq_none_iff.2
    ((h.forall_iff (Rule.orderFree_joinable S model)).1
      (JoinSet.joinsFor_eq_none_iff.1 ⟨joins, hjoins⟩))
  have hkeeps := (JoinSet.joinsFor_of_rearranged h hjoins hjoins').2
  have hfilters := (Rule.exists_compileFrom_iff hconditional).1
    ⟨restriction, Rule.compileFrom_keeps hkeeps hcompile⟩
  obtain ⟨restriction', hcompile'⟩ := (Rule.exists_compileFrom_iff
    ((h.forall_iff Rule.orderFree_unconditional).1 hconditional)).2
      ((h.forall_iff (Rule.orderFree_filter? (by simp))).1 hfilters)
  exact ⟨_, applyRules_eq_ok_iff.2 ⟨joins', restriction', hjoins', hcompile', rfl⟩⟩

/-- What rules in another order are applied to returns what it did before. -/
theorem run_of_rearranged {db : Database M} {rows : List (List (Field M))}
    (h : Rule.Rearranged rules rules')
    (hconditional : ∀ rule ∈ rules, rule.unconditional = false)
    (happlied : applyRules S (ofModel model) model rules reflector distinct = .ok applied)
    (happlied' : applyRules S (ofModel model) model rules' reflector distinct = .ok applied')
    (hrows : applied.run S db = .ok rows) : applied'.run S db = .ok rows := by
  obtain ⟨joins, restriction, hjoins, hcompile, hroot, hmodel, hconditions, hdistinct⟩ :=
    onRoot_applyRules (by simp) happlied
  obtain ⟨joins', restriction', hjoins', hcompile', hroot', hmodel', hconditions', hdistinct'⟩ :=
    onRoot_applyRules (by simp) happlied'
  obtain ⟨hperm, hkeeps⟩ := JoinSet.joinsFor_of_rearranged h hjoins hjoins'
  replace hcompile := Rule.compileFrom_keeps hkeeps hcompile
  have hconditional' := (h.forall_iff Rule.orderFree_unconditional).1 hconditional
  have hsame : joins'.model = joins.model := hmodel'.trans hmodel.symm
  rw [List.nil_append] at hconditions hconditions'
  refine hroot.run_eq_ok_of_ways hroot' hsame (order_applyRules happlied)
    (order_applyRules happlied') (hdistinct.trans hdistinct'.symm) ?_ (fun x _ => ?_) hrows
  · rw [Restriction.taken_iff (hsame ▸ hmodel') hcompile hconditions,
      Restriction.taken_iff hmodel' hcompile' hconditions',
      Restriction.checkValues_iff_forall hconditional hcompile,
      Restriction.checkValues_iff_forall hconditional' hcompile']
    exact (h.forall_iff (Rule.orderFree_filter? Filter.checkValues_both)).1
  · refine ways_of_perm hroot.linked (hsame ▸ hroot'.linked)
      (hroot.attached ▸ hroot'.attached ▸ hperm) (fun a => ?_) x
    rw [hconditions, hconditions', Restriction.holds_iff_foldTruth hconditional hcompile,
      Restriction.holds_iff_foldTruth hconditional' hcompile']
    have hfree : Rule.OrderFree (Rule.Keeps S model (some joins') reflector a) :=
      Rule.orderFree_filter? (by simp)
    rw [h.foldTruth_eq hfree]

/-- Rules that all have conditions and that can be applied can be applied in any order that keeps
the kinds in place, with their keys in any order: the statement runs on the same databases and
returns the same rows, each of them as often. -/
theorem run_applyRules_rearranged (h : Rule.Rearranged rules rules')
    (hconditional : ∀ rule ∈ rules, rule.unconditional = false)
    (happlied : applyRules S (ofModel model) model rules reflector distinct = .ok applied) :
    ∃ applied', applyRules S (ofModel model) model rules' reflector distinct = .ok applied' ∧
      ∀ (db : Database M) rows, applied.run S db = .ok rows ↔ applied'.run S db = .ok rows := by
  obtain ⟨applied', happlied'⟩ := exists_applyRules_of_rearranged h hconditional happlied
  have hconditional' := (h.forall_iff Rule.orderFree_unconditional).1 hconditional
  exact ⟨applied', happlied', fun db rows =>
    ⟨run_of_rearranged h hconditional happlied happlied',
      run_of_rearranged h.symm hconditional' happlied' happlied⟩⟩

open Sample in
/-- Two rules that allow change places, and so do the keys below the comments in one of them. The
comments are then joined before the author, and the rows stay the same. -/
theorem run_applyRules_rearranged_posts :
    let written : Rule := ⟨.bool true, .plain [(.text "author", .plain [(.text "role",
      .text "admin")]), (.text "is_published", .bool true)], ""⟩
    let commented (keys : List (Value × Value)) : Rule :=
      ⟨.bool true, .plain [(.text "comments", .plain keys)], ""⟩
    let locked : Rule := ⟨.bool false, .plain [(.text "locked", .bool true)], ""⟩
    let body : Value × Value := (.text "body", .text "spam")
    let flagged : Value × Value := (.text "flagged", .bool true)
    let rules := [written, commented [body, flagged], locked]
    let rules' := [commented [flagged, body], written, locked]
    Rule.Rearranged rules rules' ∧ (∀ rule ∈ rules, rule.unconditional = false) ∧
      ∃ applied applied',
        applyRules schema (ofModel .post) .post rules {} false = .ok applied ∧
        applyRules schema (ofModel .post) .post rules' {} false = .ok applied' ∧
        applied.joins.map (·.relationship.name) = ["author", "comments"] ∧
        applied'.joins.map (·.relationship.name) = ["comments", "author"] ∧
        ∀ rows,
          applied.run schema database = .ok rows ↔ applied'.run schema database = .ok rows := by
  intro written commented locked body flagged rules rules'
  have hkeys : Rule.Rearranged rules [written, commented [flagged, body], locked] :=
    .keys [written] [locked] (.within [] [] (.keys (.swap _ _ _)))
  have hblock : Rule.Rearranged [written, commented [flagged, body], locked] rules' :=
    .block [] [locked] (.swap (commented [flagged, body]) written [])
      (by simp [Rule.allows, written, commented])
  have hconditional : ∀ rule ∈ rules, rule.unconditional = false := by
    simp [rules, written, commented, locked, Rule.unconditional, Value.truthy]
  have happlied : applyRules schema (ofModel .post) .post rules {} false = .ok _ := rfl
  obtain ⟨applied', happlied', hruns⟩ :=
    run_applyRules_rearranged (hkeys.trans hblock) hconditional happlied
  refine ⟨hkeys.trans hblock, hconditional, _, applied', rfl, happlied', rfl, ?_, hruns database⟩
  cases happlied'
  rfl

end Select

end RowAccess
