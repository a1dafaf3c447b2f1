import RowAccess.Proofs.Success
import RowAccess.Proofs.Tree
import RowAccess.Select
/-!
# What a join set holds

A join set grows by one path at a time, each after its parent and each resolved by the schema. When
all paths of a plan could be joined, the joined paths are exactly the paths to nested trees.
-/

namespace RowAccess

namespace Model

variable {M : Type} {m : Model M}

theorem name_of_relationship? {name : String} {r : Relationship M}
    (h : m.relationship? name = some r) : r.name = name := by
  simpa using List.find?_some h

theorem key_of_column? {key : String} {c : Column} (h : m.column? key = some c) : c.key = key := by
  simpa using List.find?_some h

end Model

namespace Schema

variable {M : Type} (S : Schema M)

/-- The model that a path of relationship names leads to. -/
def follow (model : M) : JoinPath → Option M
  | [] => some model
  | name :: rest => ((S.model model).relationship? name).bind fun r => follow r.target rest

variable {S}

theorem follow_append {model : M} {path rest : JoinPath} :
    S.follow model (path ++ rest) =
      (S.follow model path).bind fun reached => S.follow reached rest := by
  induction path generalizing model with
  | nil => rfl
  | cons name path ih =>
      simp only [List.cons_append, follow]
      cases (S.model model).relationship? name with
      | none => rfl
      | some r => exact ih

theorem follow_snoc {model parent : M} {path : JoinPath} {r : Relationship M}
    (hpath : S.follow model path = some parent)
    (hr : (S.model parent).relationship? r.name = some r) :
    S.follow model (path ++ [r.name]) = some r.target := by
  simp [follow_append, hpath, follow, hr]

theorem relationship_eq_ok_iff {model : M} {name : Value} {r : Relationship M} :
    S.relationship model name = .ok r ↔
      ∃ text, name.text? = some text ∧ (S.model model).relationship? text = some r := by
  unfold relationship
  cases htext : name.text? with
  | none => cases name.unhashable? <;> simp
  | some text =>
      rw [Value.unhashable?_of_text? htext]
      cases hr : (S.model model).relationship? text <;> simp [hr]

/-- A key that is no text stands for no relationship. -/
theorem relationship_ne_ok {model : M} {name : Value} (hname : name.text? = none)
    (r : Relationship M) : S.relationship model name ≠ .ok r := by
  intro hr
  obtain ⟨text, htext, -⟩ := relationship_eq_ok_iff.1 hr
  rw [hname] at htext
  cases htext

theorem column_eq_ok_iff {model : M} {name : Value} {c : Column} :
    S.column model name = .ok c ↔
      ∃ key, name.text? = some key ∧ (S.model model).column? key = some c := by
  unfold column
  cases hkey : name.text? with
  | none => cases name.unhashable? <;> simp
  | some key =>
      rw [Value.unhashable?_of_text? hkey]
      cases hc : (S.model model).column? key <;> simp [hc]

/-- A key that is no text stands for no column. -/
theorem column_ne_ok {model : M} {name : Value} (hname : name.text? = none) (c : Column) :
    S.column model name ≠ .ok c := by
  intro hc
  obtain ⟨text, htext, -⟩ := column_eq_ok_iff.1 hc
  rw [hname] at htext
  cases htext

/-- A value that may be a key either stands for a relationship, or the model lacks it. -/
theorem relationship_eq_error {model : M} {name : Value} {fault : Fault}
    (hname : name.unhashable? = none) (h : S.relationship model name = .error fault) :
    fault = .noRelationship (S.model model).name name := by
  unfold relationship at h
  rw [hname] at h
  dsimp only at h
  split at h
  · cases h
  · exact (Except.error.inj h).symm

/-- A text stands for no relationship exactly if the model has none of this name. -/
theorem relationship_eq_error_iff {model : M} {name : Value} {text : String} {fault : Fault}
    (hname : name.text? = some text) :
    S.relationship model name = .error fault ↔ (S.model model).relationship? text = none ∧
      fault = .noRelationship (S.model model).name name := by
  unfold relationship
  rw [Value.unhashable?_of_text? hname, hname]
  cases hfound : (S.model model).relationship? text <;> simp [hfound, eq_comm]

/-- A text stands for no column exactly if the model has none of this key. -/
theorem column_eq_error_iff {model : M} {name : Value} {text : String} {fault : Fault}
    (hname : name.text? = some text) :
    S.column model name = .error fault ↔ (S.model model).column? text = none ∧
      fault = .noColumn (S.model model).name name := by
  unfold column
  rw [Value.unhashable?_of_text? hname, hname]
  cases hfound : (S.model model).column? text <;> simp [hfound, eq_comm]

end Schema

namespace JoinSet

variable {M : Type} (S : Schema M)

/-- A list of joined paths as it grows from a model: every new path goes one relationship further
than the root or a path that is there already. -/
inductive Grown (model : M) : List (Joined M) → Prop
  | nil : Grown model []
  | snoc {joined : List (Joined M)} {parents : JoinPath} {parent : M} {r : Relationship M}
      (hgrown : Grown model joined) (hparent : S.follow model parents = some parent)
      (hr : (S.model parent).relationship? r.name = some r)
      (hparents : parents = [] ∨ parents ∈ joined.map (·.path))
      (hfresh : parents ++ [r.name] ∉ joined.map (·.path)) :
      Grown model (joined ++ [⟨parents ++ [r.name], parent, r⟩])

/-- A join set that grew from its model. -/
def Sound (joins : JoinSet M) : Prop := Grown S joins.model joins.joined

variable {S}

theorem Grown.nodup {model : M} {joined : List (Joined M)} (h : Grown S model joined) :
    (joined.map (·.path)).Nodup := by
  induction h with
  | nil => simp
  | snoc _ _ _ _ hfresh ih =>
      rw [List.map_append, List.nodup_append]
      refine ⟨ih, by simp, ?_⟩
      intro path hpath last hlast heq
      rw [heq, List.mem_singleton.1 hlast] at hpath
      exact hfresh hpath

/-- Each joined path ends in its relationship, which its parent's model has. -/
theorem Grown.resolved {model : M} {joined : List (Joined M)} (h : Grown S model joined)
    {j : Joined M} (hj : j ∈ joined) :
    ∃ parents, j.path = parents ++ [j.relationship.name] ∧
      S.follow model parents = some j.parent ∧
      (S.model j.parent).relationship? j.relationship.name = some j.relationship := by
  induction h with
  | nil => simp at hj
  | snoc _ hparent hr _ _ ih =>
      rcases List.mem_append.1 hj with hold | hnew
      · exact ih hold
      · obtain rfl := List.mem_singleton.1 hnew
        exact ⟨_, rfl, hparent, hr⟩

theorem Grown.follow_path {model : M} {joined : List (Joined M)} (h : Grown S model joined)
    {j : Joined M} (hj : j ∈ joined) : S.follow model j.path = some j.relationship.target := by
  obtain ⟨parents, hpath, hparent, hr⟩ := h.resolved hj
  rw [hpath]
  exact Schema.follow_snoc hparent hr

theorem Sound.empty (model : M) (reflector : Reflector M) (scope : Nat) :
    (JoinSet.empty model reflector scope).Sound S := .nil

theorem Sound.path_ne_nil {joins : JoinSet M} (h : joins.Sound S) {path : JoinPath}
    (hpath : path ∈ joins.paths) : path ≠ [] := by
  obtain ⟨j, hj, rfl⟩ := List.mem_map.1 hpath
  obtain ⟨parents, heq, -, -⟩ := h.resolved hj
  simp [heq]

/-- What is found along a path was joined there. -/
theorem find?_eq_some {joins : JoinSet M} {path : JoinPath} {j : Joined M}
    (h : joins.find? path = some j) : j ∈ joins.joined ∧ j.path = path :=
  ⟨List.mem_of_find?_eq_some h, by simpa using List.find?_some h⟩

theorem sourceFor_eq_error_iff {joins : JoinSet M} {path : JoinPath} {fault : Fault} :
    joins.sourceFor path = .error fault ↔
      path ≠ [] ∧ path ∉ joins.paths ∧ fault = .notJoined path := by
  unfold sourceFor
  cases path with
  | nil => simp
  | cons name path =>
      rw [← find?_eq_none_iff]
      cases joins.find? (name :: path) <;> simp [eq_comm]

/-! ## Adding paths -/

theorem insert_frame (joins : JoinSet M) (j : Joined M) :
    ∃ joined, joins.insert j = { joins with joined := joined } := by
  unfold insert
  split
  · exact ⟨joins.joined, rfl⟩
  · exact ⟨_, rfl⟩

theorem mem_paths_insert {joins : JoinSet M} {j : Joined M} {path : JoinPath} :
    path ∈ (joins.insert j).paths ↔ path ∈ joins.paths ∨ path = j.path := by
  by_cases hj : j.path ∈ joins.paths
  · rw [insert_of_mem hj]
    constructor
    · exact .inl
    · rintro (h | rfl)
      · exact h
      · exact hj
  · simp [paths_insert_of_not_mem hj]

theorem Sound.insert {joins : JoinSet M} (h : joins.Sound S) {done : JoinPath} {parent : M}
    {r : Relationship M} (hdone : S.follow joins.model done = some parent)
    (hjoined : done = [] ∨ done ∈ joins.paths)
    (hr : (S.model parent).relationship? r.name = some r) :
    (joins.insert ⟨done ++ [r.name], parent, r⟩).Sound S := by
  by_cases hold : done ++ [r.name] ∈ joins.paths
  · rw [insert_of_mem hold]
    exact h
  · have hinsert : joins.insert ⟨done ++ [r.name], parent, r⟩ =
        { joins with joined := joins.joined ++ [⟨done ++ [r.name], parent, r⟩] } := by
      simp [JoinSet.insert, find?_eq_none_iff.2 hold]
    rw [hinsert]
    exact .snoc h hdone hr hjoined hold

/-- Going on along names changes nothing but the joined paths. -/
theorem extend_frame (names : List Value) (done : JoinPath) (model : M) (joins : JoinSet M) :
    ∃ joined, (extend S done model names joins).1 = { joins with joined := joined } := by
  induction names generalizing done model joins with
  | nil => exact ⟨joins.joined, rfl⟩
  | cons name names ih =>
      unfold extend
      cases S.relationship model name with
      | error fault => exact ⟨joins.joined, rfl⟩
      | ok r =>
          obtain ⟨first, hfirst⟩ := insert_frame joins ⟨done ++ [r.name], model, r⟩
          obtain ⟨second, hsecond⟩ := ih (done ++ [r.name]) r.target
            (joins.insert ⟨done ++ [r.name], model, r⟩)
          refine ⟨second, ?_⟩
          simpa only [hfirst] using hsecond

theorem add_frame (joins : JoinSet M) (names : List Value) :
    ∃ joined, (joins.add S names).1 = { joins with joined := joined } := by
  unfold add
  split
  · exact ⟨joins.joined, rfl⟩
  · exact extend_frame names [] joins.model joins

theorem addAll_frame (paths : List (List Value)) (joins : JoinSet M) :
    ∃ joined, (joins.addAll S paths).1 = { joins with joined := joined } := by
  induction paths generalizing joins with
  | nil => exact ⟨joins.joined, rfl⟩
  | cons names paths ih =>
      obtain ⟨first, hfirst⟩ := add_frame (S := S) joins names
      unfold addAll
      cases hadd : joins.add S names with
      | mk after fault =>
          rw [hadd] at hfirst
          cases fault with
          | some fault => exact ⟨first, hfirst⟩
          | none =>
              obtain ⟨second, hsecond⟩ := ih after
              refine ⟨second, ?_⟩
              rw [hsecond, show after = _ from hfirst]

theorem Sound.extend {names : List Value} {done : JoinPath} {model : M} {joins : JoinSet M}
    (h : joins.Sound S) (hdone : S.follow joins.model done = some model)
    (hjoined : done = [] ∨ done ∈ joins.paths) :
    (extend S done model names joins).1.Sound S := by
  induction names generalizing done model joins with
  | nil => exact h
  | cons name names ih =>
      unfold JoinSet.extend
      cases hname : S.relationship model name with
      | error fault => exact h
      | ok r =>
          obtain ⟨text, -, hr⟩ := Schema.relationship_eq_ok_iff.1 hname
          have hr' : (S.model model).relationship? r.name = some r := by
            rw [Model.name_of_relationship? hr]
            exact hr
          obtain ⟨joined, hframe⟩ := insert_frame joins ⟨done ++ [r.name], model, r⟩
          apply ih (h.insert hdone hjoined hr')
          · rw [hframe]
            exact Schema.follow_snoc hdone hr'
          · exact .inr (mem_paths_insert.2 (.inr rfl))

theorem Sound.add {joins : JoinSet M} (h : joins.Sound S) (names : List Value) :
    (joins.add S names).1.Sound S := by
  unfold JoinSet.add
  split
  · exact h
  · exact h.extend rfl (.inl rfl)

theorem Sound.addAll {joins : JoinSet M} (h : joins.Sound S) (paths : List (List Value)) :
    (joins.addAll S paths).1.Sound S := by
  induction paths generalizing joins with
  | nil => exact h
  | cons names paths ih =>
      have hadd := h.add names
      unfold JoinSet.addAll
      cases hstep : joins.add S names with
      | mk after fault =>
          rw [hstep] at hadd
          cases fault with
          | some fault => exact hadd
          | none => exact ih hadd

/-- When all names could be followed, their path and all its parts are joined. -/
theorem mem_paths_extend {names : List Value} {done : JoinPath} {model : M}
    {joins after : JoinSet M} (h : extend S done model names joins = (after, none)) :
    ∃ path, pathOf? names = some path ∧ ∀ p, p ∈ after.paths ↔
      p ∈ joins.paths ∨ ∃ q, q ≠ [] ∧ q <+: path ∧ p = done ++ q := by
  induction names generalizing done model joins with
  | nil =>
      obtain ⟨rfl, -⟩ := Prod.mk.inj h
      refine ⟨[], rfl, fun p => ⟨.inl, ?_⟩⟩
      rintro (hp | ⟨q, hq, hinitial, -⟩)
      · exact hp
      · exact absurd (List.prefix_nil.1 hinitial) hq
  | cons name names ih =>
      unfold extend at h
      cases hname : S.relationship model name with
      | error fault => simp [hname] at h
      | ok r =>
          rw [hname] at h
          obtain ⟨text, htext, hr⟩ := Schema.relationship_eq_ok_iff.1 hname
          obtain ⟨path, hpath, hmem⟩ := ih h
          have hrname := Model.name_of_relationship? hr
          refine ⟨text :: path, Value.pathOf?_cons_eq_some_iff.2 ⟨text, path, htext, hpath, rfl⟩,
            fun p => ?_⟩
          rw [hmem, mem_paths_insert, or_assoc, hrname]
          apply or_congr_right
          constructor
          · rintro (rfl | ⟨q, -, hinitial, rfl⟩)
            · exact ⟨[text], by simp, by simp, rfl⟩
            · exact ⟨text :: q, by simp, by simpa using hinitial, by simp⟩
          · rintro ⟨q, hq, hinitial, rfl⟩
            cases q with
            | nil => exact absurd rfl hq
            | cons first q =>
                obtain ⟨rfl, hrest⟩ := List.cons_prefix_cons.1 hinitial
                cases q with
                | nil => exact .inl rfl
                | cons second q => exact .inr ⟨second :: q, by simp, hrest, by simp⟩

theorem mem_paths_addAll {paths : List (List Value)} {joins after : JoinSet M}
    (h : joins.addAll S paths = (after, none)) (p : JoinPath) :
    p ∈ after.paths ↔ p ∈ joins.paths ∨
      ∃ names ∈ paths, ∃ path, pathOf? names = some path ∧ p ≠ [] ∧ p <+: path := by
  induction paths generalizing joins with
  | nil =>
      obtain ⟨rfl, -⟩ := Prod.mk.inj h
      simp
  | cons names paths ih =>
      unfold addAll at h
      cases hadd : joins.add S names with
      | mk middle fault =>
          rw [hadd] at h
          cases fault with
          | some fault => simp at h
          | none =>
              have hextend : extend S [] joins.model names joins = (middle, none) := by
                unfold add at hadd
                split at hadd
                · simp at hadd
                · exact hadd
              obtain ⟨path, hpath, hmem⟩ := mem_paths_extend hextend
              rw [ih h, hmem, or_assoc]
              apply or_congr_right
              simp only [List.nil_append, List.exists_mem_cons_iff, hpath, Option.some.injEq,
                exists_eq_left']
              refine or_congr_left ⟨?_, fun ⟨hp, hinitial⟩ => ⟨p, hp, hinitial, rfl⟩⟩
              rintro ⟨q, hq, hinitial, rfl⟩
              exact ⟨hq, hinitial⟩

/-- The joins that rules need lead to exactly the nested trees of their conditions. -/
theorem mem_paths_joinsFor {statement : Select M} {model : M} {rules : List Rule}
    {reflector : Reflector M} {joins : JoinSet M}
    (h : statement.joinsFor S model rules reflector = (joins, none)) {path : JoinPath} :
    path ∈ joins.paths ↔ ∃ rule ∈ rules, rule.conditions.NestedAt path := by
  rw [mem_paths_addAll h]
  constructor
  · rintro (hempty | ⟨names, hnames, longer, hlonger, hpath, hinitial⟩)
    · simp [empty, paths] at hempty
    · obtain ⟨rule, hrule, hplanned⟩ := List.mem_flatMap.1 hnames
      exact ⟨rule, hrule,
        (Value.exists_joinPaths_iff.1 ⟨names, hplanned, hlonger⟩).of_initial hpath hinitial⟩
  · rintro ⟨rule, hrule, hnested⟩
    obtain ⟨names, hplanned, hpath⟩ := Value.exists_joinPaths_iff.2 hnested
    exact .inr ⟨names, List.mem_flatMap.2 ⟨rule, hrule, hplanned⟩, path, hpath, hnested.1,
      List.prefix_refl _⟩

theorem sound_joinsFor {statement : Select M} {model : M} {rules : List Rule}
    {reflector : Reflector M} {joins : JoinSet M} {fault : Option Fault}
    (h : statement.joinsFor S model rules reflector = (joins, fault)) : joins.Sound S := by
  have hsound := (Sound.empty (S := S) model reflector statement.scopes).addAll
    (rules.flatMap fun rule => rule.conditions.joinPaths)
  unfold Select.joinsFor at h
  rwa [h] at hsound

theorem joinsFor_frame {statement : Select M} {model : M} {rules : List Rule}
    {reflector : Reflector M} {joins : JoinSet M} {fault : Option Fault}
    (h : statement.joinsFor S model rules reflector = (joins, fault)) :
    joins.model = model ∧ joins.scope = statement.scopes ∧ joins.reflector = reflector := by
  obtain ⟨joined, hframe⟩ := addAll_frame (S := S)
    (rules.flatMap fun rule => rule.conditions.joinPaths)
    (JoinSet.empty model reflector statement.scopes)
  unfold Select.joinsFor at h
  rw [h] at hframe
  rw [show joins = _ from hframe]
  exact ⟨rfl, rfl, rfl⟩

end JoinSet

end RowAccess
