import Mathlib.Data.List.Infix
import RowAccess.Join.Set
import RowAccess.Join.Plan
/-!
# Places in a condition tree

A tree of conditions is read along paths of relationship names. The definitions here say what a
path leads to, where the nested trees are and which comparisons a tree asks for; the plan of a
tree's joins lists exactly the paths of its nested trees.
-/

namespace RowAccess.Value

/-- Following the texts of a path from key to value leads from a tree to a part of it. -/
inductive Leads : Value → JoinPath → Value → Prop
  | here (tree : Value) : Leads tree [] tree
  | step {packing : Packing} {entries : List (Value × Value)} {key value target : Value}
      {name : String} {path : JoinPath} (hentry : (key, value) ∈ entries)
      (hname : key.text? = some name) (hleads : Leads value path target) :
      Leads (.mapping packing entries) (name :: path) target

/-- A path of at least one key leads to a nested tree. -/
def NestedAt (tree : Value) (path : JoinPath) : Prop :=
  path ≠ [] ∧ ∃ packing entries, tree.Leads path (.mapping packing entries)

/-- At the end of a path a tree compares a key with a value that is no tree. -/
def LeafAt (tree : Value) (path : JoinPath) (key value : Value) : Prop :=
  ∃ packing entries, tree.Leads path (.mapping packing entries) ∧ (key, value) ∈ entries ∧
    value.isMapping = false

/-- The values that a leaf of a tree asks for, before they are decoded: the elements of a
collection, or the value itself. -/
def asked (v : Value) : List Value := v.elements?.getD [v]

@[simp] theorem leads_nil {tree target : Value} : tree.Leads [] target ↔ target = tree := by
  constructor
  · intro h
    cases h
    rfl
  · rintro rfl
    exact .here _

theorem leads_cons {packing : Packing} {entries : List (Value × Value)} {name : String}
    {path : JoinPath} {target : Value} :
    (mapping packing entries).Leads (name :: path) target ↔
      ∃ key value, (key, value) ∈ entries ∧ key.text? = some name ∧
        value.Leads path target := by
  constructor
  · intro h
    cases h with
    | step hentry hname hleads => exact ⟨_, _, hentry, hname, hleads⟩
  · rintro ⟨key, value, hentry, hname, hleads⟩
    exact .step hentry hname hleads

theorem eq_mapping_of_leads_cons {tree target : Value} {name : String} {path : JoinPath}
    (h : tree.Leads (name :: path) target) :
    ∃ packing entries, tree = .mapping packing entries := by
  cases h with
  | step _ _ _ => exact ⟨_, _, rfl⟩

theorem leads_append {tree target : Value} {path rest : JoinPath} :
    tree.Leads (path ++ rest) target ↔
      ∃ middle, tree.Leads path middle ∧ middle.Leads rest target := by
  induction path generalizing tree with
  | nil => simp
  | cons name path ih =>
      constructor
      · intro h
        obtain ⟨packing, entries, rfl⟩ := eq_mapping_of_leads_cons h
        obtain ⟨key, value, hentry, hname, hleads⟩ := leads_cons.1 h
        obtain ⟨middle, hfirst, hsecond⟩ := ih.1 hleads
        exact ⟨middle, .step hentry hname hfirst, hsecond⟩
      · rintro ⟨middle, hfirst, hsecond⟩
        obtain ⟨packing, entries, rfl⟩ := eq_mapping_of_leads_cons hfirst
        obtain ⟨key, value, hentry, hname, hleads⟩ := leads_cons.1 hfirst
        exact .step hentry hname (ih.2 ⟨middle, hleads, hsecond⟩)

theorem isMapping_iff {value : Value} :
    value.isMapping = true ↔ ∃ packing entries, value = .mapping packing entries := by
  cases value <;> simp [isMapping]

theorem leafAt_nil {packing : Packing} {entries : List (Value × Value)} {key value : Value} :
    (mapping packing entries).LeafAt [] key value ↔
      (key, value) ∈ entries ∧ value.isMapping = false := by
  constructor
  · rintro ⟨packing', entries', hleads, hentry, hvalue⟩
    obtain ⟨rfl, rfl⟩ := Value.mapping.inj (leads_nil.1 hleads)
    exact ⟨hentry, hvalue⟩
  · rintro ⟨hentry, hvalue⟩
    exact ⟨packing, entries, .here _, hentry, hvalue⟩

theorem leafAt_cons {packing : Packing} {entries : List (Value × Value)} {name : String}
    {path : JoinPath} {key value : Value} :
    (mapping packing entries).LeafAt (name :: path) key value ↔
      ∃ outer tree, (outer, tree) ∈ entries ∧ outer.text? = some name ∧
        tree.LeafAt path key value := by
  constructor
  · rintro ⟨packing', entries', hleads, hentry, hvalue⟩
    obtain ⟨outer, tree, houter, hname, hrest⟩ := leads_cons.1 hleads
    exact ⟨outer, tree, houter, hname, packing', entries', hrest, hentry, hvalue⟩
  · rintro ⟨outer, tree, houter, hname, packing', entries', hrest, hentry, hvalue⟩
    exact ⟨packing', entries', .step houter hname hrest, hentry, hvalue⟩

theorem nestedAt_cons {packing : Packing} {entries : List (Value × Value)} {name : String}
    {path : JoinPath} :
    (mapping packing entries).NestedAt (name :: path) ↔
      ∃ key value, (key, value) ∈ entries ∧ key.text? = some name ∧ value.isMapping = true ∧
        (path = [] ∨ value.NestedAt path) := by
  constructor
  · rintro ⟨-, packing', entries', hleads⟩
    obtain ⟨key, value, hentry, hname, hrest⟩ := leads_cons.1 hleads
    refine ⟨key, value, hentry, hname, ?_⟩
    cases path with
    | nil =>
        rw [← leads_nil.1 hrest]
        exact ⟨rfl, .inl rfl⟩
    | cons inner path =>
        obtain ⟨packing'', entries'', rfl⟩ := eq_mapping_of_leads_cons hrest
        exact ⟨rfl, .inr ⟨by simp, packing', entries', hrest⟩⟩
  · rintro ⟨key, value, hentry, hname, hmapping, rfl | ⟨-, packing', entries', hrest⟩⟩
    · obtain ⟨packing', entries', rfl⟩ := isMapping_iff.1 hmapping
      exact ⟨by simp, packing', entries', .step hentry hname (.here _)⟩
    · exact ⟨by simp, packing', entries', .step hentry hname hrest⟩

theorem not_nestedAt_of_not_mapping {tree : Value} (htree : tree.isMapping = false)
    (path : JoinPath) : ¬ tree.NestedAt path := by
  rintro ⟨hpath, packing, entries, hleads⟩
  cases path with
  | nil => exact hpath rfl
  | cons name path =>
      obtain ⟨packing', entries', rfl⟩ := eq_mapping_of_leads_cons hleads
      simp [isMapping] at htree

theorem not_nestedAt_flat {packing : Packing} {entries : List (Value × Value)}
    (hflat : ∀ entry ∈ entries, entry.2.isMapping = false) (path : JoinPath) :
    ¬ (mapping packing entries).NestedAt path := by
  intro hnested
  cases path with
  | nil => exact hnested.1 rfl
  | cons name path =>
      obtain ⟨key, value, hentry, -, hmapping, -⟩ := nestedAt_cons.1 hnested
      rw [hflat _ hentry] at hmapping
      cases hmapping

/-- A tree without nested trees has its leaves at the root. -/
theorem leafAt_flat {packing : Packing} {entries : List (Value × Value)} {path : JoinPath}
    {key value : Value} (hflat : ∀ entry ∈ entries, entry.2.isMapping = false) :
    (mapping packing entries).LeafAt path key value ↔ path = [] ∧ (key, value) ∈ entries := by
  constructor
  · intro hleaf
    obtain rfl : path = [] := by
      by_contra hpath
      obtain ⟨packing', entries', hleads, -, -⟩ := hleaf
      exact not_nestedAt_flat hflat path ⟨hpath, packing', entries', hleads⟩
    exact ⟨rfl, (leafAt_nil.1 hleaf).1⟩
  · rintro ⟨rfl, hentry⟩
    exact leafAt_nil.2 ⟨hentry, hflat _ hentry⟩

/-- A tree of one comparison has it for its only leaf. -/
theorem leafAt_single {packing : Packing} {path : JoinPath} {key value key' value' : Value}
    (hvalue : value.isMapping = false) :
    (mapping packing [(key, value)]).LeafAt path key' value' ↔
      path = [] ∧ key' = key ∧ value' = value := by
  rw [leafAt_flat (by simpa using hvalue), List.mem_singleton, Prod.mk.injEq]

/-- Where all entries are one nested tree, the leaves are those of the nested tree. -/
theorem leafAt_nested {packing : Packing} {path : JoinPath} {key tree key' value' : Value}
    (htree : tree.isMapping = true) :
    (mapping packing [(key, tree)]).LeafAt path key' value' ↔
      ∃ name rest, path = name :: rest ∧ key.text? = some name ∧ tree.LeafAt rest key' value' := by
  cases path with
  | nil =>
      rw [leafAt_nil, List.mem_singleton, Prod.mk.injEq]
      refine iff_of_false ?_ (by simp)
      rintro ⟨⟨-, rfl⟩, hvalue⟩
      rw [htree] at hvalue
      cases hvalue
  | cons name path => simp [leafAt_cons]

/-- Every part of a path to a nested tree leads to a nested tree as well. -/
theorem NestedAt.of_initial {tree : Value} {path longer : JoinPath} (h : tree.NestedAt longer)
    (hpath : path ≠ []) (hinitial : path <+: longer) : tree.NestedAt path := by
  obtain ⟨-, packing, entries, hleads⟩ := h
  obtain ⟨rest, rfl⟩ := hinitial
  obtain ⟨middle, hfirst, hsecond⟩ := leads_append.1 hleads
  refine ⟨hpath, ?_⟩
  cases rest with
  | nil =>
      obtain rfl := leads_nil.1 hsecond
      exact ⟨_, _, hfirst⟩
  | cons name rest =>
      obtain ⟨packing', entries', rfl⟩ := eq_mapping_of_leads_cons hsecond
      exact ⟨_, _, hfirst⟩

/-! ## Induction over trees -/

/-- What holds of no entries, and passes from the entries of a nested tree and from later entries to
the entries they belong to, holds of all trees. -/
@[elab_as_elim] theorem entries_induction {P : List (Value × Value) → Prop} (nil : P [])
    (leaf : ∀ key value rest, value.isMapping = false → P rest → P ((key, value) :: rest))
    (nested : ∀ key packing entries rest, P entries → P rest →
      P ((key, .mapping packing entries) :: rest))
    (entries : List (Value × Value)) : P entries := by
  match entries with
  | [] => exact nil
  | (key, value) :: rest =>
      have hrest := entries_induction nil leaf nested rest
      cases hvalue : value.isMapping with
      | false => exact leaf key value rest hvalue hrest
      | true =>
          obtain ⟨packing, entries, rfl⟩ := isMapping_iff.1 hvalue
          exact nested key packing entries rest (entries_induction nil leaf nested entries) hrest
termination_by sizeOf entries

/-! ## Planned joins -/

theorem pathOf?_cons_eq_some_iff {key : Value} {keys : List Value} {path : JoinPath} :
    JoinSet.pathOf? (key :: keys) = some path ↔
      ∃ name rest, key.text? = some name ∧ JoinSet.pathOf? keys = some rest ∧
        path = name :: rest := by
  simp only [JoinSet.pathOf?, List.mapM_cons, Option.bind_eq_bind, Option.bind_eq_some_iff,
    Option.pure_def, Option.some.injEq]
  constructor
  · rintro ⟨name, hname, rest, hrest, rfl⟩
    exact ⟨name, rest, hname, hrest, rfl⟩
  · rintro ⟨name, rest, hname, hrest, rfl⟩
    exact ⟨name, hname, rest, hrest, rfl⟩

theorem mem_joinPathsOfEntries {entries : List (Value × Value)} {keys : List Value} :
    keys ∈ joinPathsOfEntries entries ↔
      ∃ key value rest, (key, value) ∈ entries ∧ value.isMapping = true ∧ keys = key :: rest ∧
        (rest = [] ∨ rest ∈ value.joinPaths) := by
  induction entries with
  | nil => simp [joinPathsOfEntries]
  | cons entry entries ih =>
      obtain ⟨key, value⟩ := entry
      have hhead : keys ∈ (if value.isMapping = true then
            [key] :: (joinPaths value).map (key :: ·) else []) ↔
          value.isMapping = true ∧ ∃ rest, keys = key :: rest ∧
            (rest = [] ∨ rest ∈ value.joinPaths) := by
        split
        · rename_i hmapping
          simp only [List.mem_cons, List.mem_map, hmapping, true_and]
          constructor
          · rintro (rfl | ⟨rest, hrest, rfl⟩)
            · exact ⟨[], rfl, .inl rfl⟩
            · exact ⟨rest, rfl, .inr hrest⟩
          · rintro ⟨rest, rfl, rfl | hrest⟩
            · exact .inl rfl
            · exact .inr ⟨rest, hrest, rfl⟩
        · rename_i hmapping
          simp [hmapping]
      rw [joinPathsOfEntries, List.mem_append, hhead, ih]
      constructor
      · rintro (⟨hmapping, rest, hkeys, hrest⟩ | ⟨key', value', rest, hentry, hmapping, hrest⟩)
        · exact ⟨key, value, rest, by simp, hmapping, hkeys, hrest⟩
        · exact ⟨key', value', rest, by simp [hentry], hmapping, hrest⟩
      · rintro ⟨key', value', rest, hentry, hmapping, hkeys, hrest⟩
        rcases List.mem_cons.1 hentry with heq | hentry
        · obtain ⟨rfl, rfl⟩ := Prod.mk.inj heq
          exact .inl ⟨hmapping, rest, hkeys, hrest⟩
        · exact .inr ⟨key', value', rest, hentry, hmapping, hkeys, hrest⟩

theorem exists_joinPaths_iff {tree : Value} {path : JoinPath} :
    (∃ keys ∈ tree.joinPaths, JoinSet.pathOf? keys = some path) ↔ tree.NestedAt path := by
  induction path generalizing tree with
  | nil =>
      constructor
      · rintro ⟨keys, hkeys, hpath⟩
        cases tree with
        | mapping packing entries =>
            rw [joinPaths, mem_joinPathsOfEntries] at hkeys
            obtain ⟨key, value, rest, -, -, rfl, -⟩ := hkeys
            obtain ⟨name, names, -, -, h⟩ := pathOf?_cons_eq_some_iff.1 hpath
            simp at h
        | _ => simp [joinPaths] at hkeys
      · rintro ⟨h, -⟩
        exact absurd rfl h
  | cons name path ih =>
      cases tree with
      | mapping packing entries =>
          rw [nestedAt_cons]
          simp only [joinPaths, mem_joinPathsOfEntries]
          constructor
          · rintro ⟨_, ⟨key, value, rest, hentry, hmapping, rfl, hrest⟩, hpath⟩
            obtain ⟨_, _, hname, hnames, h⟩ := pathOf?_cons_eq_some_iff.1 hpath
            obtain ⟨rfl, rfl⟩ := List.cons.inj h
            refine ⟨key, value, hentry, hname, hmapping, ?_⟩
            rcases hrest with rfl | hrest
            · left
              simpa [JoinSet.pathOf?] using hnames.symm
            · exact .inr (ih.1 ⟨rest, hrest, hnames⟩)
          · rintro ⟨key, value, hentry, hname, hmapping, rfl | hnested⟩
            · exact ⟨[key], ⟨key, value, [], hentry, hmapping, rfl, .inl rfl⟩,
                pathOf?_cons_eq_some_iff.2 ⟨name, [], hname, rfl, rfl⟩⟩
            · obtain ⟨rest, hrest, hnames⟩ := ih.2 hnested
              exact ⟨key :: rest, ⟨key, value, rest, hentry, hmapping, rfl, .inr hrest⟩,
                pathOf?_cons_eq_some_iff.2 ⟨name, path, hname, hnames, rfl⟩⟩
      | _ =>
          constructor
          · rintro ⟨keys, hkeys, -⟩
            simp [joinPaths] at hkeys
          · intro h
            exact absurd h (not_nestedAt_of_not_mapping rfl _)

end RowAccess.Value
