import RowAccess.Proofs.AppliedRules
import RowAccess.Proofs.OtherSources
/-!
# Join sets with more joined

Rules that come later in a list join more paths. Whether a path can be joined depends on the schema
alone, and what is joined along it on nothing but the path. So rules compile to the same filter
when more is joined than they need.
-/

namespace RowAccess

namespace Schema

variable {M : Type} (S : Schema M)

/-- The relationships that keys name one after the other exist. -/
def Joinable (model : M) (keys : List Value) : Prop :=
  ∃ path, JoinSet.pathOf? keys = some path ∧ ∃ reached, S.follow model path = some reached

variable {S}

theorem joinable_nil (model : M) : S.Joinable model [] := ⟨[], rfl, model, rfl⟩

theorem joinable_cons {model : M} {key : Value} {keys : List Value} :
    S.Joinable model (key :: keys) ↔
      ∃ r, S.relationship model key = .ok r ∧ S.Joinable r.target keys := by
  constructor
  · rintro ⟨path, hpath, reached, hreached⟩
    obtain ⟨name, rest, hname, hrest, rfl⟩ := Value.pathOf?_cons_eq_some_iff.1 hpath
    obtain ⟨r, hr, hfollow⟩ := Option.bind_eq_some_iff.1 hreached
    exact ⟨r, relationship_eq_ok_iff.2 ⟨name, hname, hr⟩, rest, hrest, reached, hfollow⟩
  · rintro ⟨r, hr, path, hpath, reached, hreached⟩
    obtain ⟨name, hname, hfound⟩ := relationship_eq_ok_iff.1 hr
    refine ⟨name :: path, Value.pathOf?_cons_eq_some_iff.2 ⟨name, path, hname, hpath, rfl⟩,
      reached, ?_⟩
    rw [follow, hfound]
    exact hreached

theorem Joinable.unhashableIn?_eq {model : M} {keys : List Value} (h : S.Joinable model keys) :
    Value.unhashableIn? keys = none := by
  induction keys generalizing model with
  | nil => rfl
  | cons key keys ih =>
      obtain ⟨r, hr, hkeys⟩ := joinable_cons.1 h
      obtain ⟨name, hname, -⟩ := relationship_eq_ok_iff.1 hr
      rw [Value.unhashableIn?, Value.unhashable?_of_text? hname, ih hkeys]
      rfl

end Schema

/-- The relationships that a rule's nested conditions are about exist. -/
def Rule.Joinable {M : Type} (S : Schema M) (model : M) (rule : Rule) : Prop :=
  ∀ keys ∈ rule.conditions.joinPaths, S.Joinable model keys

namespace JoinSet

variable {M : Type} {S : Schema M}

/-! ## Joining more paths -/

theorem extend_snd_eq_none_iff {names : List Value} {done : JoinPath} {model : M}
    {joins : JoinSet M} :
    (extend S done model names joins).2 = none ↔ S.Joinable model names := by
  induction names generalizing done model joins with
  | nil => exact iff_of_true rfl (Schema.joinable_nil model)
  | cons name names ih =>
      rw [Schema.joinable_cons, extend]
      cases hr : S.relationship model name with
      | error fault => simp
      | ok r => simpa using ih

/-- Whether paths can be joined does not depend on what is joined already. -/
theorem addAll_snd_eq_none_iff (paths : List (List Value)) (joins : JoinSet M) :
    (joins.addAll S paths).2 = none ↔ ∀ keys ∈ paths, S.Joinable joins.model keys := by
  induction paths generalizing joins with
  | nil => simp [addAll]
  | cons keys paths ih =>
      have hadd : (joins.add S keys).2 = none ↔ S.Joinable joins.model keys := by
        unfold add
        cases hkeys : Value.unhashableIn? keys with
        | some typeName =>
            refine iff_of_false (by simp) fun hjoinable => ?_
            rw [hjoinable.unhashableIn?_eq] at hkeys
            cases hkeys
        | none => exact extend_snd_eq_none_iff
      obtain ⟨joined, hframe⟩ := add_frame (S := S) joins keys
      rw [List.forall_mem_cons, ← hadd, addAll]
      cases hstep : joins.add S keys with
      | mk after fault =>
          rw [hstep] at hframe
          cases fault with
          | some fault => simp
          | none => simp [ih, show after = _ from hframe]

theorem addAll_append {first second : List (List Value)} {joins middle : JoinSet M}
    (h : joins.addAll S first = (middle, none)) :
    joins.addAll S (first ++ second) = middle.addAll S second := by
  induction first generalizing joins with
  | nil =>
      obtain ⟨rfl, -⟩ := Prod.mk.inj h
      rfl
  | cons keys first ih =>
      unfold addAll at h
      rw [List.cons_append, addAll]
      cases hstep : joins.add S keys with
      | mk after fault =>
          rw [hstep] at h
          cases fault with
          | some fault => simp at h
          | none => exact ih h

theorem joined_initial_insert (joins : JoinSet M) (j : Joined M) :
    joins.joined <+: (joins.insert j).joined := by
  unfold insert
  split
  · exact List.prefix_refl _
  · exact List.prefix_append _ _

theorem joined_initial_extend (names : List Value) (done : JoinPath) (model : M)
    (joins : JoinSet M) : joins.joined <+: (extend S done model names joins).1.joined := by
  induction names generalizing done model joins with
  | nil => exact List.prefix_refl _
  | cons name names ih =>
      unfold extend
      cases S.relationship model name with
      | error fault => exact List.prefix_refl _
      | ok r => exact (joined_initial_insert _ _).trans (ih _ _ _)

/-- What is joined stays in front of what is joined later. -/
theorem joined_initial_addAll (paths : List (List Value)) (joins : JoinSet M) :
    joins.joined <+: (joins.addAll S paths).1.joined := by
  induction paths generalizing joins with
  | nil => exact List.prefix_refl _
  | cons keys paths ih =>
      have hadd : joins.joined <+: (joins.add S keys).1.joined := by
        unfold add
        split
        · exact List.prefix_refl _
        · exact joined_initial_extend _ _ _ _
      unfold addAll
      cases hstep : joins.add S keys with
      | mk after fault =>
          rw [hstep] at hadd
          cases fault with
          | some fault => exact hadd
          | none => exact hadd.trans (ih after)

/-- The joins that rules need can be attached if all relationships exist. -/
theorem joinsFor_eq_none_iff {statement : Select M} {model : M} {rules : List Rule}
    {reflector : Reflector M} :
    (∃ joins, statement.joinsFor S model rules reflector = (joins, none)) ↔
      ∀ rule ∈ rules, rule.Joinable S model := by
  have hpaths : (∀ rule ∈ rules, rule.Joinable S model) ↔
      ∀ keys ∈ rules.flatMap fun rule => rule.conditions.joinPaths, S.Joinable model keys := by
    simp only [Rule.Joinable, List.mem_flatMap]
    exact ⟨fun h keys ⟨rule, hrule, hkeys⟩ => h rule hrule keys hkeys,
      fun h rule hrule keys hkeys => h keys ⟨rule, hrule, hkeys⟩⟩
  rw [hpaths, Select.joinsFor]
  refine Iff.trans ?_ (addAll_snd_eq_none_iff _ (empty model reflector statement.scopes))
  constructor
  · rintro ⟨joins, hjoins⟩
    rw [hjoins]
  · intro hfault
    exact ⟨_, Prod.ext rfl hfault⟩

/-- Later rules only add to the joins of the rules before them. -/
theorem joinsFor_append {statement : Select M} {model : M} {first second : List Rule}
    {reflector : Reflector M} {joins : JoinSet M}
    (h : statement.joinsFor S model first reflector = (joins, none)) :
    statement.joinsFor S model (first ++ second) reflector =
      joins.addAll S (second.flatMap fun rule => rule.conditions.joinPaths) := by
  rw [Select.joinsFor, List.flatMap_append]
  exact addAll_append h

/-! ## Join sets within each other -/

/-- Everything that is joined in one join set is joined in the other one in the same way. -/
structure Within (small large : JoinSet M) : Prop where
  model : small.model = large.model
  scope : small.scope = large.scope
  joined : small.joined ⊆ large.joined

theorem Grown.unique {model : M} {joined joined' : List (Joined M)} (h : Grown S model joined)
    (h' : Grown S model joined') {j j' : Joined M} (hj : j ∈ joined) (hj' : j' ∈ joined')
    (hpath : j.path = j'.path) : j = j' := by
  obtain ⟨parents, hparents, hfollow, hr⟩ := h.resolved hj
  obtain ⟨parents', hparents', hfollow', hr'⟩ := h'.resolved hj'
  obtain ⟨path, parent, r⟩ := j
  obtain ⟨path', parent', r'⟩ := j'
  dsimp only at *
  obtain rfl := hpath
  obtain ⟨rfl, hname⟩ := List.append_inj' (hparents.symm.trans hparents') rfl
  obtain rfl := Option.some.inj (hfollow.symm.trans hfollow')
  rw [List.singleton_inj.1 hname] at hr
  obtain rfl := Option.some.inj (hr.symm.trans hr')
  rfl

variable {small large : JoinSet M}

/-- Only the joined paths have to be compared: what is joined along a path is the same. -/
theorem joined_subset_of_paths (hsmall : small.Sound S) (hlarge : large.Sound S)
    (hmodel : small.model = large.model) (hpaths : small.paths ⊆ large.paths) :
    small.joined ⊆ large.joined := by
  intro j hj
  obtain ⟨k, hk, hpath⟩ := List.mem_map.1 (hpaths (List.mem_map_of_mem hj))
  rw [Sound, hmodel] at hsmall
  rwa [Grown.unique hsmall hlarge hj hk hpath.symm]

theorem Within.of_paths (hsmall : small.Sound S) (hlarge : large.Sound S)
    (hmodel : small.model = large.model) (hscope : small.scope = large.scope)
    (hpaths : small.paths ⊆ large.paths) : small.Within large :=
  ⟨hmodel, hscope, joined_subset_of_paths hsmall hlarge hmodel hpaths⟩

/-- What some of the rules need joined is joined in the same way for all of them. -/
theorem within_joinsFor {statement : Select M} {model : M} {some all : List Rule}
    {reflector : Reflector M} (hsome : statement.joinsFor S model some reflector = (small, none))
    (hall : statement.joinsFor S model all reflector = (large, none)) (hsubset : some ⊆ all) :
    small.Within large := by
  obtain ⟨hmodel, hscope, -⟩ := joinsFor_frame hsome
  obtain ⟨hmodel', hscope', -⟩ := joinsFor_frame hall
  refine .of_paths (sound_joinsFor hsome) (sound_joinsFor hall) (hmodel.trans hmodel'.symm)
    (hscope.trans hscope'.symm) fun path hpath => ?_
  obtain ⟨rule, hrule, hnested⟩ := (mem_paths_joinsFor hsome).1 hpath
  exact (mem_paths_joinsFor hall).2 ⟨rule, hsubset hrule, hnested⟩

theorem Within.sourceFor (h : small.Within large) (hsmall : small.Sound S)
    (hlarge : large.Sound S) {path : JoinPath} {source : Source M}
    (hsource : small.sourceFor path = .ok source) : large.sourceFor path = .ok source := by
  rw [sourceFor_eq_ok_iff hlarge]
  rcases (sourceFor_eq_ok_iff hsmall).1 hsource with ⟨rfl, rfl⟩ | ⟨j, hj, rfl, rfl⟩
  · exact .inl ⟨rfl, by rw [h.model]⟩
  · exact .inr ⟨j, h.joined hj, rfl, by rw [sourceOf, sourceOf, h.scope]⟩

theorem Within.joins_subset (h : small.Within large) : small.joins ⊆ large.joins := by
  intro j hj
  obtain ⟨k, hk, rfl⟩ := List.mem_map.1 hj
  refine List.mem_map.2 ⟨k, h.joined hk, ?_⟩
  simp only [sourceOf, parentOf, h.scope]

/-- Along the paths of the smaller join set the larger one has the same joins. -/
theorem Within.mem_of_path (h : small.Within large) (hlarge : large.Sound S) {k : Joined M}
    (hk : k ∈ large.joined) (hpath : k.path ∈ small.paths) :
    ⟨large.parentOf k, k.relationship, large.sourceOf k⟩ ∈ small.joins := by
  obtain ⟨j, hj, heq⟩ := List.mem_map.1 hpath
  obtain rfl := Grown.unique hlarge hlarge (h.joined hj) hk heq
  exact List.mem_map.2 ⟨j, hj, by simp only [sourceOf, parentOf, h.scope]⟩

/-- A source that the smaller join set joins is joined by the same join in the larger one. -/
theorem Within.mem_of_target (h : small.Within large) (hlarge : large.Sound S) {j : Join M}
    (hj : j ∈ large.joins) (htarget : j.target ∈ small.joins.map (·.target)) :
    j ∈ small.joins := by
  obtain ⟨k, hk, hsame⟩ := List.mem_map.1 htarget
  rwa [List.inj_on_of_nodup_map hlarge.linked.nodup_targets hj (h.joins_subset hk) hsame.symm]

end JoinSet

/-! ## Compiling with more joined -/

namespace Position

variable {M : Type} {S : Schema M} {small large : JoinSet M}

/-- A position with other joins. -/
def withJoins (p : Position M) (joins : JoinSet M) : Position M := { p with joins := some joins }

/-- Every source of the smaller join set is one of the larger. -/
def Keeps (small large : JoinSet M) : Prop :=
  ∀ path source, small.sourceFor path = .ok source → large.sourceFor path = .ok source

/-- Where more is joined, columns are read from the same sources. -/
theorem Keeps.carries (h : Keeps small large) :
    Carries S id fun p q => p.joins = some small ∧ q = p.withJoins large where
  model := by
    rintro p _ ⟨-, rfl⟩
    rfl
  reflector := by
    rintro p _ ⟨-, rfl⟩
    rfl
  source := by
    rintro p _ ⟨-, rfl⟩
    rfl
  descend := by
    rintro p _ key child ⟨hjoins, rfl⟩ hchild
    obtain ⟨name, r, source, hname, hr, hsource, rfl⟩ := descend_eq_ok_iff.1 hchild
    rw [sourceAt, hjoins] at hsource
    exact ⟨_, descend_eq_ok_iff.2 ⟨name, r, source, hname, hr, h _ _ hsource, rfl⟩, hjoins, rfl⟩

end Position

namespace Rule

variable {M : Type} [DecidableEq M] {S : Schema M} {model : M} {small large : JoinSet M}
  {reflector : Reflector M}

theorem filter?_keeps (h : Position.Keeps small large) {rule : Rule} {filter : Option (Filter M)}
    (hfilter : rule.filter? S model (some small) reflector = .ok filter) :
    rule.filter? S model (some large) reflector = .ok filter := by
  simpa using filter?_carried h.carries ⟨rfl, rfl⟩ hfilter

/-- Rules compile to the same when more is joined than they need. -/
theorem compileFrom_keeps (h : Position.Keeps small large) {position : Nat}
    {before : Option (Filter M)} {rules : List Rule} {restriction : Restriction M}
    (hcompile : compileFrom S model (some small) reflector position before rules =
      .ok restriction) :
    compileFrom S model (some large) reflector position before rules = .ok restriction := by
  simpa using compileFrom_carried h.carries ⟨rfl, rfl⟩ hcompile

variable {joins : Option (JoinSet M)} {position : Nat} {before : Option (Filter M)}
  {first second : List Rule}

/-- Later rules go on from the filter that the rules before them come to. -/
theorem compileFrom_append {f : Filter M}
    (h : compileFrom S model joins reflector position before first = .ok (.filtered f)) :
    compileFrom S model joins reflector position before (first ++ second) =
      compileFrom S model joins reflector (position + first.length) (some f) second := by
  induction first generalizing position before with
  | nil =>
      cases before with
      | none => cases h
      | some b =>
          cases h
          rfl
  | cons rule first ih =>
      obtain ⟨filter, hfilter, hrest⟩ := compileFrom_cons h rfl
      rw [List.cons_append, compileFrom, Success.bind_ok hfilter]
      dsimp only
      rw [ih hrest, List.length_cons, Nat.add_assoc, Nat.add_comm 1]

/-- Once the restriction is lifted, later rules are not compiled. -/
theorem compileFrom_append_of_lifted {n : Nat} {lifting : Rule}
    (h : compileFrom S model joins reflector position before first = .ok (.lifted n lifting)) :
    compileFrom S model joins reflector position before (first ++ second) =
      .ok (.lifted n lifting) := by
  induction first generalizing position before with
  | nil => cases before <;> cases h
  | cons rule first ih =>
      rw [List.cons_append, compileFrom]
      rw [compileFrom] at h
      obtain ⟨found, hfound, hrest⟩ := Success.bind_eq_ok_iff.1 h
      rw [Success.bind_ok hfound]
      cases found with
      | none => exact hrest
      | some filter => exact ih hrest

end Rule

end RowAccess
