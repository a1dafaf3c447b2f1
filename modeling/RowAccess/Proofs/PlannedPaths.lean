import Mathlib.Data.List.Sort
import RowAccess.Proofs.Tree
import RowAccess.Value.Equality
/-!
# The plan of joins in the order of the document

Joins are planned by a recursion that puts a key in front of everything found below it. What it
finds is said here without the recursion: a nested tree stands at a position, which counts the
entries gone by at each level, and these positions are ordered as the tree is written. The plan is
the one list of key paths that goes through the nested trees in this order. From the order it
follows that parents come before their children and, as the keys of a mapping differ, that no path
comes twice.
-/

namespace RowAccess.Value

/-- Going from a value to one of its own, as long as there are mappings, leads to a part of a tree.
The position counts the entries gone by at each level; the keys are those of the entries taken. -/
inductive PartAt : Value → List Nat → List Value → Value → Prop
  | here (tree : Value) : PartAt tree [] [] tree
  | inside {packing : Packing} {entries : List (Value × Value)} {index : Nat} {key value : Value}
      {position : List Nat} {keys : List Value} {part : Value}
      (hentry : entries[index]? = some (key, value)) (hpart : PartAt value position keys part) :
      PartAt (.mapping packing entries) (index :: position) (key :: keys) part

/-- Below its root a tree has a nested tree at a position, and keys lead to it. -/
def NestedTreeAt (tree : Value) (position : List Nat) (keys : List Value) : Prop :=
  keys ≠ [] ∧ ∃ packing entries, tree.PartAt position keys (.mapping packing entries)

/-- Key paths go through the nested trees of a tree in the order of the document, once each. -/
def ListsNestedTrees (tree : Value) (paths : List (List Value)) : Prop :=
  ∃ sites : List (List Nat × List Value),
    sites.Pairwise (fun site later => site.1 < later.1) ∧
    (∀ site, site ∈ sites ↔ tree.NestedTreeAt site.1 site.2) ∧
    paths = sites.map (·.2)

mutual

/-- No mapping among the trees nested in each other has two keys that count as equal. -/
def distinctKeys : Value → Bool
  | .mapping _ entries => distinctKeysOf entries
  | _ => true
termination_by structural v => v

/-- No two of these entries have keys that count as equal, and neither have the trees in them. -/
def distinctKeysOf : List (Value × Value) → Bool
  | [] => true
  | (key, value) :: rest =>
    rest.all (fun later => !key.equals later.1) && distinctKeys value && distinctKeysOf rest
termination_by structural v => v

end

mutual

/-- The positions of the nested trees, each with the keys that lead to it. -/
def nestedSites : Value → List (List Nat × List Value)
  | .mapping _ entries => nestedSitesFrom 0 entries
  | _ => []
termination_by structural v => v

/-- The nested trees in these entries, the first of which has been given a number. -/
def nestedSitesFrom (index : Nat) : List (Value × Value) → List (List Nat × List Value)
  | [] => []
  | (key, value) :: rest =>
    (if value.isMapping then
      ([index], [key]) :: (nestedSites value).map fun site => (index :: site.1, key :: site.2)
      else []) ++ nestedSitesFrom (index + 1) rest
termination_by structural v => v

end

/-! ## Parts of a tree -/

variable {tree part : Value} {packing : Packing} {entries : List (Value × Value)}
  {position : List Nat} {keys : List Value}

theorem partAt_nil : tree.PartAt position [] part ↔ position = [] ∧ part = tree := by
  constructor
  · intro h
    cases h
    exact ⟨rfl, rfl⟩
  · rintro ⟨rfl, rfl⟩
    exact .here _

/-- Keys lead to a part by way of the first of them. -/
theorem PartAt.split {initial rest : List Value} (h : tree.PartAt position (initial ++ rest) part) :
    ∃ before after middle, position = before ++ after ∧ tree.PartAt before initial middle ∧
      middle.PartAt after rest part := by
  induction initial generalizing tree position with
  | nil => exact ⟨[], position, tree, rfl, .here _, h⟩
  | cons key initial ih =>
      cases h with
      | inside hentry hpart =>
          obtain ⟨before, after, middle, rfl, hfirst, hsecond⟩ := ih hpart
          exact ⟨_ :: before, after, middle, rfl, .inside hentry hfirst, hsecond⟩

theorem not_nestedTreeAt_of_not_mapping (htree : tree.isMapping = false) :
    ¬ tree.NestedTreeAt position keys := by
  rintro ⟨hkeys, packing, entries, hpart⟩
  cases hpart with
  | here => exact hkeys rfl
  | inside => cases htree

/-- A nested tree is the value of an entry or stands below it. -/
theorem nestedTreeAt_cons {key value : Value} {rest : List (Value × Value)} :
    (mapping packing ((key, value) :: rest)).NestedTreeAt position keys ↔
      (∃ inner names, position = 0 :: inner ∧ keys = key :: names ∧ value.isMapping = true ∧
        (inner = [] ∧ names = [] ∨ value.NestedTreeAt inner names)) ∨
      ∃ index inner, position = (index + 1) :: inner ∧
        (mapping packing rest).NestedTreeAt (index :: inner) keys := by
  constructor
  · rintro ⟨hkeys, packing', entries', hpart⟩
    cases hpart with
    | here => exact absurd rfl hkeys
    | @inside _ _ index key' value' inner names _ hentry hpart =>
        cases index with
        | zero =>
            obtain ⟨rfl, rfl⟩ := Prod.mk.inj (Option.some.inj hentry)
            refine .inl ⟨inner, names, rfl, rfl, ?_⟩
            cases names with
            | nil =>
                obtain ⟨rfl, rfl⟩ := partAt_nil.1 hpart
                exact ⟨rfl, .inl ⟨rfl, rfl⟩⟩
            | cons name names =>
                refine ⟨?_, .inr ⟨by simp, packing', entries', hpart⟩⟩
                cases hpart with
                | inside => rfl
        | succ index =>
            exact .inr ⟨index, inner, rfl, hkeys, packing', entries', .inside hentry hpart⟩
  · rintro (⟨inner, names, rfl, rfl, hmapping, ⟨rfl, rfl⟩ | ⟨-, packing', entries', hpart⟩⟩ |
      ⟨index, inner, rfl, hkeys, packing', entries', hpart⟩)
    · obtain ⟨packing', entries', rfl⟩ := isMapping_iff.1 hmapping
      exact ⟨by simp, packing', entries', .inside rfl (.here _)⟩
    · exact ⟨by simp, packing', entries', .inside rfl hpart⟩
    · cases hpart with
      | inside hentry hpart => exact ⟨hkeys, packing', entries', .inside hentry hpart⟩

/-- Fewer keys on the way to a nested tree lead to one that stands earlier. -/
theorem NestedTreeAt.of_initial {initial : List Value} (h : tree.NestedTreeAt position keys)
    (hne : initial ≠ []) (hinitial : initial <+: keys) (hproper : initial ≠ keys) :
    ∃ earlier < position, tree.NestedTreeAt earlier initial := by
  obtain ⟨-, packing, entries, hpart⟩ := h
  obtain ⟨rest, rfl⟩ := hinitial
  obtain ⟨before, after, middle, rfl, hfirst, hsecond⟩ := hpart.split
  cases hsecond with
  | here => simp at hproper
  | @inside packing' entries' index _ _ inner _ _ =>
      refine ⟨before, ?_, hne, packing', entries', hfirst⟩
      have hlater : before ++ [] < before ++ index :: inner :=
        List.append_left_lt (List.nil_lt_cons index inner)
      rwa [List.append_nil] at hlater

/-! ## Nested trees in order -/

section Entries

variable {start : Nat} {key value : Value} {nested rest : List (Value × Value)}

theorem joinPathsOfEntries_leaf (hvalue : value.isMapping = false) :
    joinPathsOfEntries ((key, value) :: rest) = joinPathsOfEntries rest := by
  rw [joinPathsOfEntries, hvalue]
  rfl

theorem joinPathsOfEntries_nested :
    joinPathsOfEntries ((key, mapping packing nested) :: rest) =
      ([key] :: (joinPathsOfEntries nested).map (key :: ·)) ++ joinPathsOfEntries rest := by
  rw [joinPathsOfEntries, joinPaths]
  rfl

theorem nestedSitesFrom_leaf (hvalue : value.isMapping = false) :
    nestedSitesFrom start ((key, value) :: rest) = nestedSitesFrom (start + 1) rest := by
  rw [nestedSitesFrom, hvalue]
  rfl

theorem nestedSitesFrom_nested :
    nestedSitesFrom start ((key, mapping packing nested) :: rest) =
      (([start], [key]) :: (nestedSitesFrom 0 nested).map fun site =>
        (start :: site.1, key :: site.2)) ++ nestedSitesFrom (start + 1) rest := by
  rw [nestedSitesFrom, nestedSites]
  rfl

end Entries

/-- The position of a nested tree names an entry. -/
theorem exists_cons_nestedTreeAt :
    (∃ index inner, position = index :: inner ∧ tree.NestedTreeAt (index :: inner) keys) ↔
      tree.NestedTreeAt position keys := by
  constructor
  · rintro ⟨index, inner, rfl, h⟩
    exact h
  · rintro ⟨hkeys, packing, entries, hpart⟩
    cases hpart with
    | here => exact absurd rfl hkeys
    | inside hentry hpart => exact ⟨_, _, rfl, hkeys, packing, entries, .inside hentry hpart⟩

/-- Among entries numbered from anywhere on, a nested tree is the value of the first, stands below
it, or is found among the others, numbered from the next number on. -/
theorem exists_from_cons {start : Nat} {key value : Value} {rest : List (Value × Value)} :
    (∃ index inner, position = (start + index) :: inner ∧
        (mapping packing ((key, value) :: rest)).NestedTreeAt (index :: inner) keys) ↔
      (∃ inner names, position = start :: inner ∧ keys = key :: names ∧ value.isMapping = true ∧
        (inner = [] ∧ names = [] ∨ value.NestedTreeAt inner names)) ∨
      ∃ index inner, position = (start + 1 + index) :: inner ∧
        (mapping packing rest).NestedTreeAt (index :: inner) keys := by
  simp only [nestedTreeAt_cons, List.cons.injEq]
  constructor
  · rintro ⟨index, inner, rfl, ⟨inner', names, ⟨rfl, rfl⟩, rfl, hvalue⟩ |
      ⟨later, inner', ⟨rfl, rfl⟩, hrest⟩⟩
    · exact .inl ⟨inner, names, rfl, rfl, hvalue⟩
    · exact .inr ⟨later, inner, by rw [Nat.add_right_comm, Nat.add_assoc], hrest⟩
  · rintro (⟨inner, names, rfl, rfl, hvalue⟩ | ⟨index, inner, rfl, hrest⟩)
    · exact ⟨0, inner, rfl, .inl ⟨inner, names, ⟨rfl, rfl⟩, rfl, hvalue⟩⟩
    · exact ⟨index + 1, inner, by rw [Nat.add_right_comm, Nat.add_assoc],
        .inr ⟨index, inner, ⟨rfl, rfl⟩, hrest⟩⟩

theorem mem_nestedSitesFrom (packing : Packing) {start : Nat} :
    (position, keys) ∈ nestedSitesFrom start entries ↔
      ∃ index inner, position = (start + index) :: inner ∧
        (mapping packing entries).NestedTreeAt (index :: inner) keys := by
  -- the start is left open: later entries are numbered from the next number on, nested ones from 0
  induction entries using entries_induction generalizing packing start position keys with
  | nil =>
      refine iff_of_false (by simp [nestedSitesFrom]) ?_
      rintro ⟨index, inner, -, -, packing', entries', hpart⟩
      cases hpart with
      | inside hentry => simp at hentry
  | leaf key value rest hvalue ih =>
      rw [exists_from_cons, nestedSitesFrom_leaf hvalue, ih packing, hvalue]
      simp
  | nested key packing' nested rest ihNested ihRest =>
      rw [exists_from_cons, nestedSitesFrom_nested, List.mem_append, ihRest packing]
      refine or_congr_left ?_
      simp only [List.mem_cons, List.mem_map, Prod.exists, Prod.mk.injEq,
        ihNested packing', Nat.zero_add, exists_cons_nestedTreeAt]
      constructor
      · rintro (⟨rfl, rfl⟩ | ⟨inner, names, hnested, rfl, rfl⟩)
        · exact ⟨[], [], rfl, rfl, rfl, .inl ⟨rfl, rfl⟩⟩
        · exact ⟨inner, names, rfl, rfl, rfl, .inr hnested⟩
      · rintro ⟨inner, names, rfl, rfl, -, ⟨rfl, rfl⟩ | hnested⟩
        · exact .inl ⟨rfl, rfl⟩
        · exact .inr ⟨inner, names, hnested, rfl, rfl⟩

theorem mem_nestedSites_iff :
    (position, keys) ∈ tree.nestedSites ↔ tree.NestedTreeAt position keys := by
  cases htree : tree.isMapping with
  | false =>
      refine iff_of_false ?_ (not_nestedTreeAt_of_not_mapping htree)
      cases tree with
      | mapping packing entries => cases htree
      | _ => simp [nestedSites]
  | true =>
      obtain ⟨packing, entries, rfl⟩ := isMapping_iff.1 htree
      rw [nestedSites, mem_nestedSitesFrom packing]
      simp only [Nat.zero_add, exists_cons_nestedTreeAt]

/-- A key comes before what stands below it, and that before what the next keys lead to. -/
theorem pairwise_nestedSitesFrom (start : Nat) (entries : List (Value × Value)) :
    (nestedSitesFrom start entries).Pairwise fun site later => site.1 < later.1 := by
  induction entries using entries_induction generalizing start with
  | nil => exact .nil
  | leaf key value rest hvalue ih =>
      rw [nestedSitesFrom_leaf hvalue]
      exact ih (start + 1)
  | nested key packing nested rest ihNested ihRest =>
      have hrest : ∀ site ∈ nestedSitesFrom (start + 1) rest, ∀ inner, start :: inner < site.1 := by
        rintro ⟨position, keys⟩ hsite inner
        obtain ⟨index, later, rfl, -⟩ := (mem_nestedSitesFrom packing).1 hsite
        exact List.cons_lt_cons_iff.2 (.inl (by omega))
      have hbelow : ∀ site ∈ nestedSitesFrom 0 nested, [start] < start :: site.1 := by
        rintro ⟨position, keys⟩ hsite
        obtain ⟨index, inner, rfl, -⟩ := (mem_nestedSitesFrom packing).1 hsite
        exact List.cons_lt_cons_iff.2 (.inr ⟨rfl, List.nil_lt_cons _ _⟩)
      rw [nestedSitesFrom_nested, List.pairwise_append, List.pairwise_cons, List.pairwise_map]
      refine ⟨⟨?_, ?_⟩, ihRest (start + 1), ?_⟩
      · intro site hsite
        obtain ⟨inner, hinner, rfl⟩ := List.mem_map.1 hsite
        exact hbelow inner hinner
      · exact (ihNested 0).imp fun h => List.cons_lt_cons_iff.2 (.inr ⟨rfl, h⟩)
      · intro site hsite later hlater
        rcases List.mem_cons.1 hsite with rfl | hsite
        · exact hrest later hlater []
        · obtain ⟨inner, -, rfl⟩ := List.mem_map.1 hsite
          exact hrest later hlater inner.1

theorem map_nestedSitesFrom (start : Nat) (entries : List (Value × Value)) :
    (nestedSitesFrom start entries).map (·.2) = joinPathsOfEntries entries := by
  induction entries using entries_induction generalizing start with
  | nil => rfl
  | leaf key value rest hvalue ih =>
      rw [nestedSitesFrom_leaf hvalue, joinPathsOfEntries_leaf hvalue, ih]
  | nested key packing nested rest ihNested ihRest =>
      rw [nestedSitesFrom_nested, joinPathsOfEntries_nested, List.map_append, ihRest, ← ihNested 0]
      simp

/-! ## Keys that differ -/

/-- Entries whose keys do not count as equal, one compared with the later ones. -/
def KeysApart (entries : List (Value × Value)) : Prop :=
  entries.Pairwise fun entry later => entry.1.equals later.1 = false

theorem distinctKeysOf_iff : distinctKeysOf entries = true ↔
    KeysApart entries ∧ ∀ entry ∈ entries, entry.2.distinctKeys = true := by
  induction entries with
  | nil => simp [distinctKeysOf, KeysApart]
  | cons entry entries ih =>
      obtain ⟨key, value⟩ := entry
      simp only [distinctKeysOf, Bool.and_eq_true, List.all_eq_true, Bool.not_eq_true', ih,
        KeysApart, List.pairwise_cons, List.forall_mem_cons]
      constructor
      · rintro ⟨⟨hkey, hvalue⟩, hkeys, hvalues⟩
        exact ⟨⟨hkey, hkeys⟩, hvalue, hvalues⟩
      · rintro ⟨⟨hkey, hkeys⟩, hvalue, hvalues⟩
        exact ⟨⟨hkey, hvalue⟩, hkeys, hvalues⟩

/-- Where keys differ, different positions are reached along different keys. -/
theorem PartAt.pointwise_eq_false {later : List Nat} {others : List Value} {other : Value}
    (h : tree.PartAt position keys part) (h' : tree.PartAt later others other)
    (hlt : position < later) (hkeys : tree.distinctKeys = true) :
    pointwise keys others = false := by
  induction h generalizing later others with
  | here =>
      cases h' with
      | here => exact absurd hlt (List.lt_irrefl _)
      | inside => simp [pointwise]
  | @inside packing entries index key value _ _ _ hentry _ ih =>
      cases h' with
      | here => exact absurd hlt (List.not_lt_nil _)
      | @inside _ _ index' key' value' _ _ _ hentry' hpart' =>
          rw [distinctKeys, distinctKeysOf_iff] at hkeys
          rw [pointwise, Bool.and_eq_false_iff]
          rcases List.cons_lt_cons_iff.1 hlt with hindex | ⟨rfl, hinner⟩
          · obtain ⟨hbound, hget⟩ := List.getElem?_eq_some_iff.1 hentry
            obtain ⟨hbound', hget'⟩ := List.getElem?_eq_some_iff.1 hentry'
            have hapart := List.pairwise_iff_getElem.1 hkeys.1 index index' hbound hbound' hindex
            rw [hget, hget'] at hapart
            exact .inl hapart
          · obtain ⟨rfl, rfl⟩ := Prod.mk.inj (Option.some.inj (hentry.symm.trans hentry'))
            exact .inr (ih hpart' hinner (hkeys.2 _ (List.mem_of_getElem? hentry)))

/-! ## Lists of nested trees -/

/-- The plan of the joins lists the nested trees in the order of the document. -/
theorem listsNestedTrees_joinPaths (tree : Value) : tree.ListsNestedTrees tree.joinPaths := by
  refine ⟨tree.nestedSites, ?_, fun site => mem_nestedSites_iff, ?_⟩
  · cases tree with
    | mapping packing entries =>
        rw [nestedSites]
        exact pairwise_nestedSitesFrom 0 entries
    | _ => exact .nil
  · cases tree with
    | mapping packing entries =>
        rw [joinPaths, nestedSites, map_nestedSitesFrom]
    | _ => rfl

example : (plain [(.text "a", plain [(.text "b", plain [(.text "c", .int 3)])]),
    (.text "d", plain [(.text "e", .int 4)])]).joinPaths =
    [[.text "a"], [.text "a", .text "b"], [.text "d"]] := rfl

namespace ListsNestedTrees

variable {paths : List (List Value)}

/-- There is only one order of the document. -/
theorem unique {others : List (List Value)} (h : tree.ListsNestedTrees paths)
    (h' : tree.ListsNestedTrees others) : paths = others := by
  obtain ⟨sites, hsorted, hsites, rfl⟩ := h
  obtain ⟨sites', hsorted', hsites', rfl⟩ := h'
  have hirrefl : Std.Irrefl fun site later : List Nat × List Value => site.1 < later.1 :=
    ⟨fun site => List.lt_irrefl site.1⟩
  have hperm : sites.Perm sites' :=
    (List.perm_ext_iff_of_nodup hsorted.nodup hsorted'.nodup).2 fun site =>
      (hsites site).trans (hsites' site).symm
  rw [hperm.eq_of_pairwise (fun _ _ _ _ h h' => absurd h' (List.lt_asymm h)) hsorted hsorted']

/-- A nested tree comes after all those that it is nested in. -/
theorem initial_mem {before after : List (List Value)} {initial : List Value}
    (h : tree.ListsNestedTrees (before ++ keys :: after)) (hne : initial ≠ [])
    (hinitial : initial <+: keys) (hproper : initial ≠ keys) : initial ∈ before := by
  obtain ⟨sites, hsorted, hsites, hpaths⟩ := h
  obtain ⟨first, others, rfl, rfl, hothers⟩ := List.map_eq_append_iff.1 hpaths.symm
  obtain ⟨site, last, rfl, rfl, -⟩ := List.map_eq_cons_iff.1 hothers
  obtain ⟨earlier, hearlier, hnested⟩ :=
    ((hsites site).1 (by simp)).of_initial hne hinitial hproper
  obtain ⟨-, hlater, -⟩ := List.pairwise_append.1 hsorted
  rcases List.mem_append.1 ((hsites (earlier, initial)).2 hnested) with hmem | hmem
  · exact List.mem_map.2 ⟨_, hmem, rfl⟩
  · rcases List.mem_cons.1 hmem with rfl | hmem
    · exact absurd hearlier (List.lt_irrefl _)
    · exact absurd hearlier (List.lt_asymm ((List.pairwise_cons.1 hlater).1 _ hmem))

/-- Where keys differ, so do the paths. -/
theorem pairwise_pointwise (h : tree.ListsNestedTrees paths) (hkeys : tree.distinctKeys = true) :
    paths.Pairwise fun keys later => pointwise keys later = false := by
  obtain ⟨sites, hsorted, hsites, rfl⟩ := h
  rw [List.pairwise_map]
  refine hsorted.imp_of_mem fun {site later} hsite hlater hlt => ?_
  obtain ⟨-, packing, entries, hpart⟩ := (hsites site).1 hsite
  obtain ⟨-, packing', entries', hpart'⟩ := (hsites later).1 hlater
  exact hpart.pointwise_eq_false hpart' hlt hkeys

end ListsNestedTrees

/-! ## One mapping after the other -/

/-- An entry with a new key is stored after the others. -/
theorem store_of_new {key value : Value} (hnew : ∀ entry ∈ entries, entry.1.equals key = false) :
    store key value entries = entries ++ [(key, value)] := by
  induction entries with
  | nil => rfl
  | cons entry entries ih =>
      rw [List.forall_mem_cons] at hnew
      rw [store, hnew.1, ih hnew.2]
      rfl

/-- Entries whose keys differ are all stored. -/
theorem entriesOf_of_keysApart (h : KeysApart entries) : entriesOf entries = entries := by
  induction entries using List.reverseRecOn with
  | nil => rfl
  | append_singleton entries entry ih =>
      obtain ⟨hkeys, -, hlast⟩ := List.pairwise_append.1 h
      have hnew : ∀ earlier ∈ entries, earlier.1.equals entry.1 = false :=
        fun earlier hearlier => hlast earlier hearlier entry (by simp)
      calc entriesOf (entries ++ [entry])
        _ = store entry.1 entry.2 (entriesOf entries) := by simp [entriesOf]
        _ = store entry.1 entry.2 entries := by rw [ih hkeys]
        _ = entries ++ [entry] := store_of_new hnew

theorem joinPathsOfEntries_append (first second : List (Value × Value)) :
    joinPathsOfEntries (first ++ second) =
      joinPathsOfEntries first ++ joinPathsOfEntries second := by
  induction first with
  | nil => rfl
  | cons entry first ih =>
      rw [List.cons_append, joinPathsOfEntries, joinPathsOfEntries, ih, List.append_assoc]

end RowAccess.Value
