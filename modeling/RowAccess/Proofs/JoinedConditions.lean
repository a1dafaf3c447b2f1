import RowAccess.Proofs.FirstFault
import RowAccess.Proofs.JoinHistory
/-!
# Compiling with joins and without

With joins a condition tree compiles as it does without them, except that the columns of a leaf are
read from the entity that is joined along the keys that lead to it. The one new thing that can go
wrong is that a path is not joined; compilation then stops at the first such path it comes to, as
long as nothing else is wrong before.
-/

namespace RowAccess

/-- A leaf as it stands in a tree: the keys that lead to it, its own key and its value. -/
structure LeafSite where
  keys : List Value
  key : Value
  value : Value

namespace Value

mutual

/-- The leaves of a tree in the order of the document; what is no tree has none. -/
def leaves : Value → List LeafSite
  | .mapping _ entries => leavesOfEntries entries
  | _ => []
termination_by structural v => v

/-- The leaves among these entries and in the trees nested in them. -/
def leavesOfEntries : List (Value × Value) → List LeafSite
  | [] => []
  | (key, value) :: rest =>
    (if value.isMapping then (leaves value).map fun site => { site with keys := key :: site.keys }
      else [⟨[], key, value⟩]) ++ leavesOfEntries rest
termination_by structural v => v

end

end Value

/-- The source that stands for the same model without joins. -/
def Source.unaliased {M : Type} (s : Source M) : Source M := .own s.model

variable {M : Type}

namespace JoinSet

variable [DecidableEq M]

/-- What a leaf compiles to further down from a path that has been gone along: the comparison that
it is read as, with a column of the entity that is joined along its keys. -/
def ComparesAlong (S : Schema M) (joins : JoinSet M) (reflector : Reflector M) (done : JoinPath)
    (comparator : Comparator) (site : LeafSite) (filter : Filter M) : Prop :=
  ∃ path leaf source, pathOf? site.keys = some path ∧
    S.ReadsLeaf reflector joins.model (done ++ path) site.key site.value leaf ∧
    joins.sourceFor (done ++ path) = .ok source ∧ filter = leaf.filter comparator source

/-- A path is the first that compilation comes to without it being joined: the rules before and what
stands before it in its own rule are without fault, and all their paths are joined. -/
def MissesFirst (S : Schema M) (joins : JoinSet M) (reflector : Reflector M) (model : M)
    (rules : List Rule) (path : JoinPath) : Prop :=
  path ∉ joins.paths ∧ ∃ before rule after position, rules = before ++ rule :: after ∧
    (∀ r ∈ before, r.Passes S reflector none model ∧
      ∀ position asked, r.Asks S model position asked → asked ∈ joins.paths) ∧
    rule.Asks S model position path ∧
    ∀ earlier < position, (∀ fault, ¬ rule.FaultAt S reflector none model earlier fault) ∧
      ∀ asked, rule.Asks S model earlier asked → asked ∈ joins.paths

/-- With joins rules are refused for the same fault as without them, lift the restriction just the
same, or compile to the same filter, in which the leaves, one after the other, are compared with
columns of the entities that are joined along their keys. -/
structure CompilesAlike (S : Schema M) (joins : JoinSet M) (reflector : Reflector M) (model : M)
    (rules : List Rule) : Prop where
  unaliased : (Rule.compile S model rules (some joins) reflector).map
    (Restriction.mapSources Source.unaliased) = Rule.compile S model rules none reflector
  aliased : ∀ filter, Rule.compile S model rules (some joins) reflector = .ok (.filtered filter) →
    ∃ parts : List (Filter M), List.Forall₂
        (fun entry part => joins.ComparesAlong S reflector [] entry.1 entry.2 part)
        (rules.flatMap fun rule => rule.conditions.leaves.map (rule.comparator, ·)) parts ∧
      filter.atoms = parts.flatMap Filter.atoms

end JoinSet

/-! ## Paths that are asked for -/

theorem JoinSet.contains_eq_ok_true_iff {joins : JoinSet M} {names : List Value} {path : JoinPath}
    (hnames : pathOf? names = some path) :
    joins.contains names = .ok true ↔ path = [] ∨ path ∈ joins.paths := by
  cases names with
  | nil =>
      obtain rfl := Option.some.inj hnames
      exact iff_of_true rfl (.inl rfl)
  | cons name names =>
      obtain ⟨text, rest, -, -, rfl⟩ := Value.pathOf?_cons_eq_some_iff.1 hnames
      have hfind : text :: rest ∈ joins.paths ↔ (joins.find? (text :: rest)).isSome = true := by
        rw [Option.isSome_iff_ne_none, ne_eq, find?_eq_none_iff, not_not]
      rw [hfind]
      simp [contains, findValues, Value.unhashableIn?_of_pathOf? hnames, hnames, Except.map]

/-! ## Faults with joins and without -/

section Flaws

variable [DecidableEq M] {S : Schema M} {model : M} {reflector : Reflector M} {joins : JoinSet M}
  {p : Place M} {fault : Fault}

/-- Where the path that is asked for is joined, joins make no difference. -/
theorem Place.flawed_joins_iff (h : ∀ path, p.Asks S path → path ∈ joins.paths) :
    p.Flawed S reflector (some joins) fault ↔ p.Flawed S reflector none fault := by
  have hjoined : ∀ path, p.Asks S path →
      ((∃ joined : JoinSet M, none = some joined ∧ path ∉ joined.paths) ↔
        ∃ joined, some joins = some joined ∧ path ∉ joined.paths) := by
    intro path hasks
    simp [h path hasks]
  exact ⟨fun hflawed => hflawed.of_joined hjoined,
    fun hflawed => hflawed.of_joined fun path hasks => (hjoined path hasks).symm⟩

/-- The only fault that comes with joins is a path that is not joined. -/
theorem Place.Flawed.without_joins (h : p.Flawed S reflector (some joins) fault) :
    p.Flawed S reflector none fault ∨
      ∃ path, fault = .notJoined path ∧ p.Asks S path ∧ path ∉ joins.paths := by
  by_cases hall : ∀ path, p.Asks S path → path ∈ joins.paths
  · exact .inl ((flawed_joins_iff hall).1 h)
  · push Not at hall
    obtain ⟨_, ⟨hvalue, r, hr, rfl⟩, hpath⟩ := hall
    obtain ⟨packing, nested, htree⟩ := Value.isMapping_iff.1 hvalue
    rcases (flawed_nested_iff hr htree).1 h with ⟨joined, -, -, rfl⟩ | ⟨hjoined, -, -⟩
    · exact .inr ⟨_, rfl, ⟨hvalue, r, hr, rfl⟩, hpath⟩
    · exact absurd (hjoined joins rfl) hpath

/-- What is wrong without joins is wrong with joins, unless the path is not even joined. -/
theorem Place.Flawed.with_joins (h : p.Flawed S reflector none fault) :
    p.Flawed S reflector (some joins) fault ∨ ∃ path, p.Asks S path ∧ path ∉ joins.paths := by
  by_cases hall : ∀ path, p.Asks S path → path ∈ joins.paths
  · exact .inl ((flawed_joins_iff hall).2 h)
  · push Not at hall
    exact .inr hall

theorem Place.flawed_of_asks {path : JoinPath} (hasks : p.Asks S path)
    (hpath : path ∉ joins.paths) : p.Flawed S reflector (some joins) (.notJoined path) := by
  obtain ⟨hvalue, r, hr, rfl⟩ := hasks
  exact .notJoined hr hvalue rfl hpath

end Flaws

namespace Rule

variable [DecidableEq M] {S : Schema M} {reflector : Reflector M} {joins : JoinSet M} {model : M}
  {rule : Rule} {rules : List Rule} {position : List Nat} {fault : Fault} {path : JoinPath}

theorem FaultAt.without_joins (h : rule.FaultAt S reflector (some joins) model position fault) :
    rule.FaultAt S reflector none model position fault ∨
      ∃ path, fault = .notJoined path ∧ rule.Asks S model position path ∧ path ∉ joins.paths := by
  rcases faultAt_iff.1 h with hroot | ⟨place, hplace, hflawed⟩
  · exact .inl (faultAt_iff.2 (.inl hroot))
  · rcases hflawed.without_joins with hflawed | ⟨path, rfl, hasks, hpath⟩
    · exact .inl (hplace.faultAt hflawed)
    · exact .inr ⟨path, rfl, ⟨place, hplace, hasks⟩, hpath⟩

theorem FaultAt.with_joins (h : rule.FaultAt S reflector none model position fault) :
    rule.FaultAt S reflector (some joins) model position fault ∨
      ∃ path, rule.Asks S model position path ∧ path ∉ joins.paths := by
  rcases faultAt_iff.1 h with hroot | ⟨place, hplace, hflawed⟩
  · exact .inl (faultAt_iff.2 (.inl hroot))
  · rcases hflawed.with_joins with hflawed | ⟨path, hasks, hpath⟩
    · exact .inl (hplace.faultAt hflawed)
    · exact .inr ⟨path, ⟨place, hplace, hasks⟩, hpath⟩

theorem faultAt_of_asks (hasks : rule.Asks S model position path) (hpath : path ∉ joins.paths) :
    rule.FaultAt S reflector (some joins) model position (.notJoined path) := by
  obtain ⟨place, hplace, hasks⟩ := hasks
  exact hplace.faultAt (Place.flawed_of_asks hasks hpath)

/-- With joins nothing is wrong at a position exactly if nothing is without joins and the path that
is asked for there is joined. -/
theorem forall_not_faultAt_iff :
    (∀ fault, ¬ rule.FaultAt S reflector (some joins) model position fault) ↔
      (∀ fault, ¬ rule.FaultAt S reflector none model position fault) ∧
        ∀ path, rule.Asks S model position path → path ∈ joins.paths := by
  constructor
  · intro h
    refine ⟨fun fault hfault => ?_, fun path hasks => ?_⟩
    · have hjoined : rule.FaultAt S reflector (some joins) model position fault ∨ _ :=
        hfault.with_joins
      rcases hjoined with hfault | ⟨path, hasks, hpath⟩
      · exact h _ hfault
      · exact h _ (faultAt_of_asks hasks hpath)
    · by_contra hpath
      exact h _ (faultAt_of_asks hasks hpath)
  · rintro ⟨hnone, hjoined⟩ fault hfault
    rcases hfault.without_joins with hfault | ⟨path, -, hasks, hpath⟩
    · exact hnone fault hfault
    · exact hpath (hjoined path hasks)

theorem passes_with_joins_iff :
    rule.Passes S reflector (some joins) model ↔ rule.Passes S reflector none model ∧
      ∀ position path, rule.Asks S model position path → path ∈ joins.paths := by
  simp only [Passes, forall_not_faultAt_iff, forall_and, and_assoc]

/-- Without joins no path is missed. -/
theorem not_faultAt_notJoined :
    ¬ rule.FaultAt S reflector none model position (.notJoined path) := by
  intro h
  rcases faultAt_iff.1 h with ⟨-, -, hroot⟩ | ⟨place, -, hflawed⟩
  · cases hroot
  · cases hflawed with
    | notJoined _ _ hjoins => cases hjoins
    | declaration _ _ hkind => exact Reflector.kind_error hkind

/-- A path that is not joined is the first fault exactly if it is the first that is missed. -/
theorem firstFault_notJoined_iff :
    FirstFault S reflector (some joins) model rules (.notJoined path) ↔
      joins.MissesFirst S reflector model rules path := by
  constructor
  · rintro ⟨before, rule, after, rfl, hbefore, position, hfault, hearlier⟩
    simp only [forall_not_faultAt_iff] at hearlier
    simp only [passes_with_joins_iff] at hbefore
    rcases hfault.without_joins with hfault | ⟨missed, heq, hasks, hpath⟩
    · exact absurd hfault not_faultAt_notJoined
    · obtain rfl := Fault.notJoined.inj heq
      exact ⟨hpath, before, rule, after, position, rfl, hbefore, hasks, hearlier⟩
  · rintro ⟨hpath, before, rule, after, position, rfl, hbefore, hasks, hearlier⟩
    refine ⟨before, rule, after, rfl, fun r hr => passes_with_joins_iff.2 (hbefore r hr), position,
      faultAt_of_asks hasks hpath, fun earlier h => forall_not_faultAt_iff.2 (hearlier earlier h)⟩

/-- With joins the first fault is that without joins, or a path that is not joined comes first. -/
theorem FirstFault.without_joins (h : FirstFault S reflector (some joins) model rules fault) :
    FirstFault S reflector none model rules fault ∨ ∃ path, fault = .notJoined path := by
  obtain ⟨before, rule, after, rfl, hbefore, position, hfault, hearlier⟩ := h
  simp only [forall_not_faultAt_iff] at hearlier
  simp only [passes_with_joins_iff] at hbefore
  rcases hfault.without_joins with hfault | ⟨path, rfl, -, -⟩
  · exact .inl ⟨before, rule, after, rfl, fun r hr => (hbefore r hr).1, position, hfault,
      fun earlier h => (hearlier earlier h).1⟩
  · exact .inr ⟨path, rfl⟩

end Rule

/-! ## Leaves with joins -/

/-- A position that reads what its path leads to, from what is joined along it. -/
structure Position.Aliased (S : Schema M) (joins : JoinSet M) (reflector : Reflector M)
    (p : Position M) : Prop where
  joined : p.joins = some joins
  reflected : p.reflector = reflector
  reached : S.follow joins.model p.path = some p.model
  read : joins.sourceFor p.path = .ok p.source

section Leaves

variable {S : Schema M} {joins : JoinSet M} {reflector : Reflector M}

theorem Position.Aliased.root : (Position.root joins.model (some joins) reflector).Aliased S joins
    reflector := ⟨rfl, rfl, rfl, rfl⟩

theorem Position.Aliased.descend {p child : Position M} {key : Value}
    (h : p.Aliased S joins reflector) (hchild : p.descend S key = .ok child) :
    child.Aliased S joins reflector ∧
      ∃ name, key.text? = some name ∧ child.path = p.path ++ [name] := by
  obtain ⟨name, r, source, hname, hfound, hsource, rfl⟩ := descend_eq_ok_iff.1 hchild
  obtain rfl := Model.name_of_relationship? hfound
  rw [sourceAt, h.joined] at hsource
  exact ⟨⟨h.joined, h.reflected, Schema.follow_snoc h.reached hfound, hsource⟩, r.name, hname, rfl⟩

/-- A joined source stands for the model that its path leads to. -/
theorem JoinSet.Sound.model_of_sourceFor (hsound : joins.Sound S) {path : JoinPath} {reached : M}
    {source : Source M} (hsource : joins.sourceFor path = .ok source)
    (hreached : S.follow joins.model path = some reached) : source.model = reached := by
  rcases (sourceFor_eq_ok_iff hsound).1 hsource with ⟨rfl, rfl⟩ | ⟨j, hj, rfl, rfl⟩
  · exact Option.some.inj hreached
  · exact Option.some.inj ((hsound.follow_path hj).symm.trans hreached)

/-- What compiles with joins compiles without them, from the same models. -/
theorem JoinSet.Sound.carries (hsound : joins.Sound S) (reflector : Reflector M) :
    Position.Carries S Source.unaliased fun p q => p.Aliased S joins reflector ∧
      q = { p with source := .own p.model, joins := none } where
  model := by
    rintro p _ ⟨-, rfl⟩
    rfl
  reflector := by
    rintro p _ ⟨-, rfl⟩
    rfl
  source := by
    rintro p _ ⟨hp, rfl⟩
    rw [Source.unaliased, hsound.model_of_sourceFor hp.read hp.reached]
  descend := by
    rintro p _ key child ⟨hp, rfl⟩ hchild
    obtain ⟨hreached, -⟩ := hp.descend hchild
    obtain ⟨name, r, source, hname, hfound, -, rfl⟩ := Position.descend_eq_ok_iff.1 hchild
    exact ⟨_, Position.descend_eq_ok_iff.2 ⟨name, r, _, hname, hfound, rfl, rfl⟩, hreached, rfl⟩

theorem Filter.atoms_all (first : Filter M) (rest : List (Filter M)) :
    (Filter.all first rest).atoms = (first :: rest).flatMap atoms := by
  unfold Filter.all
  induction rest generalizing first with
  | nil => simp
  | cons second rest ih =>
      rw [List.foldl_cons, ih]
      simp [atoms]

theorem Position.atoms_conjunction {p : Position M} {tree : Value} {filters : List (Filter M)}
    {filter : Filter M} (h : p.conjunction tree filters = .ok filter) :
    filter.atoms = filters.flatMap Filter.atoms := by
  cases filters with
  | nil => cases h
  | cons first rest =>
      cases h
      exact Filter.atoms_all first rest

theorem Rule.atoms_extend (rule : Rule) (filter b : Filter M) :
    (rule.extend filter (some b)).atoms = b.atoms ++ filter.atoms := by
  simp only [extend]
  split <;> rfl

variable [DecidableEq M]

/-- The entries of a tree compile to the comparisons of its leaves, in the order of the document. -/
theorem Position.Aliased.atoms_comparisons {comparator : Comparator}
    (entries : List (Value × Value)) {p : Position M} {filters : List (Filter M)}
    (h : p.Aliased S joins reflector)
    (hfilters : Position.comparisons S comparator p entries = .ok filters) :
    ∃ parts, List.Forall₂ (joins.ComparesAlong S reflector p.path comparator)
        (Value.leavesOfEntries entries) parts ∧
      filters.flatMap Filter.atoms = parts.flatMap Filter.atoms := by
  induction entries using Value.entries_induction generalizing p filters with
  | nil =>
      rw [comparisons] at hfilters
      cases hfilters
      exact ⟨[], .nil, rfl⟩
  | leaf key value rest hvalue ih =>
      obtain ⟨filter, others, hfilter, hothers, rfl⟩ := comparisons_cons_eq_ok_iff.1 hfilters
      obtain ⟨leaf, hleaf, rfl⟩ := (comparison_leaf_eq_ok_iff hvalue).1 hfilter
      obtain ⟨parts, hparts, hatoms⟩ := ih h hothers
      rw [h.reflected] at hleaf
      refine ⟨leaf.filter comparator p.source :: parts, ?_, ?_⟩
      · rw [Value.leavesOfEntries, hvalue]
        refine .cons ⟨[], leaf, p.source, rfl, ⟨p.model, ?_, hleaf⟩, ?_, rfl⟩ hparts
        · rw [List.append_nil, h.reached]
        · rw [List.append_nil, h.read]
      · rw [List.flatMap_cons, List.flatMap_cons, hatoms]
  | nested key packing entries rest ihEntries ihRest =>
      obtain ⟨filter, others, hfilter, hothers, rfl⟩ := comparisons_cons_eq_ok_iff.1 hfilters
      obtain ⟨child, inner, hchild, hinner, hall⟩ := comparison_nested_eq_ok_iff.1 hfilter
      obtain ⟨parts, hparts, hatoms⟩ := ihRest h hothers
      obtain ⟨haliased, name, hname, hpath⟩ := h.descend hchild
      obtain ⟨nested, hnested, hnestedAtoms⟩ := ihEntries haliased hinner
      refine ⟨nested ++ parts, ?_, ?_⟩
      · rw [Value.leavesOfEntries, Value.leaves]
        refine List.rel_append (List.forall₂_map_left_iff.2 (hnested.imp ?_)) hparts
        rintro site part ⟨path, leaf, source, hkeys, hreads, hsource, rfl⟩
        rw [hpath, List.append_assoc] at hreads hsource
        exact ⟨name :: path, leaf, source, Value.pathOf?_cons_eq_some_iff.2
          ⟨name, path, hname, hkeys, rfl⟩, hreads, hsource, rfl⟩
      · rw [List.flatMap_cons, List.flatMap_append, atoms_conjunction hall, hnestedAtoms, hatoms]

theorem Rule.atoms_filter? {rule : Rule} {filter : Filter M}
    (h : rule.filter? S joins.model (some joins) reflector = .ok (some filter)) :
    ∃ parts, List.Forall₂ (joins.ComparesAlong S reflector [] rule.comparator)
        rule.conditions.leaves parts ∧
      filter.atoms = parts.flatMap Filter.atoms := by
  obtain ⟨-, packing, entries, filters, hrule, hfilters, hall⟩ := filter?_eq_some h
  obtain ⟨parts, hparts, hatoms⟩ := Position.Aliased.root.atoms_comparisons entries hfilters
  rw [hrule, Value.leaves, Position.atoms_conjunction hall]
  exact ⟨parts, hparts, hatoms⟩

/-- Rules compile to the comparisons of their leaves, one rule after the other. -/
theorem Rule.atoms_compileFrom {position : Nat} {before : Option (Filter M)} {rules : List Rule}
    {filter : Filter M}
    (h : compileFrom S joins.model (some joins) reflector position before rules =
      .ok (.filtered filter)) :
    ∃ parts : List (Filter M), List.Forall₂
        (fun entry part => joins.ComparesAlong S reflector [] entry.1 entry.2 part)
        (rules.flatMap fun rule => rule.conditions.leaves.map (rule.comparator, ·)) parts ∧
      filter.atoms = before.toList.flatMap Filter.atoms ++ parts.flatMap Filter.atoms := by
  induction rules generalizing position before with
  | nil =>
      cases before with
      | none => cases h
      | some b =>
          cases h
          exact ⟨[], .nil, by simp⟩
  | cons rule rules ih =>
      obtain ⟨first, hfirst, hrest⟩ := compileFrom_cons h rfl
      obtain ⟨parts, hparts, hatoms⟩ := atoms_filter? hfirst
      obtain ⟨later, hlater, hlaterAtoms⟩ := ih hrest
      refine ⟨parts ++ later, ?_, ?_⟩
      · rw [List.flatMap_cons]
        refine List.rel_append ?_ hlater
        exact List.forall₂_map_left_iff.2 hparts
      · rw [hlaterAtoms, List.flatMap_append, ← List.append_assoc, ← hatoms]
        cases before with
        | none => simp [extend]
        | some b => simp [atoms_extend]

end Leaves

/-! ## Compiling -/

namespace JoinSet

variable [DecidableEq M] {S : Schema M} {joins : JoinSet M} {rules : List Rule}

/-- Rules compile with joins as they do without, unless a path is complained about. -/
theorem Sound.compilesAlike_or (hsound : joins.Sound S) (reflector : Reflector M)
    (rules : List Rule) :
    joins.CompilesAlike S reflector joins.model rules ∨ ∃ path,
      Rule.compile S joins.model rules (some joins) reflector = .error (.notJoined path) := by
  cases hcompile : Rule.compile S joins.model rules (some joins) reflector with
  | ok restriction =>
      refine .inl ⟨?_, fun filter hfilter => ?_⟩
      · rw [hcompile]
        exact (Rule.compileFrom_carried (hsound.carries reflector)
          ⟨Position.Aliased.root, rfl⟩ hcompile).symm
      · simpa using Rule.atoms_compileFrom hfilter
  | error fault =>
      rcases (Rule.compileFrom_eq_error_iff.1 hcompile).without_joins with hfirst | ⟨path, rfl⟩
      · refine .inl ⟨?_, fun filter hfilter => ?_⟩
        · rw [hcompile]
          exact (Rule.compileFrom_eq_error_iff.2 hfirst).symm
        · rw [hcompile] at hfilter
          cases hfilter
      · exact .inr ⟨path, rfl⟩

/-- Where all planned paths are joined, none is missed. -/
theorem not_missesFirst
    (hall : ∀ rule ∈ rules, ∀ keys ∈ rule.conditions.joinPaths, joins.contains keys = .ok true)
    {reflector : Reflector M} {model : M} {path : JoinPath} :
    ¬ joins.MissesFirst S reflector model rules path := by
  rintro ⟨hpath, before, rule, after, position, rfl, -, hasks, -⟩
  obtain ⟨keys, hkeys, hwritten⟩ := hasks.planned
  rcases (contains_eq_ok_true_iff hwritten).1 (hall rule (by simp) keys hkeys) with rfl | hjoined
  · obtain ⟨place, -, -, r, -, hempty⟩ := hasks
    simp at hempty
  · exact hpath hjoined

/-- Rules compiled with a join set of their model, whatever calls it has come from. If all paths are
joined that are planned for the rules, they compile as without joins. If not, they may compile as
without joins all the same, or else a path is complained about, and that is the first that
compilation comes to without it being joined. -/
theorem compile_with_joins (S : Schema M) (model : M) (reflector : Reflector M) (scope : Nat)
    (history : List Call) (rules : List Rule) :
    let joins := (empty model reflector scope).after S history
    ((∀ rule ∈ rules, ∀ keys ∈ rule.conditions.joinPaths, joins.contains keys = .ok true) →
      joins.CompilesAlike S reflector model rules) ∧
    (joins.CompilesAlike S reflector model rules ∨ ∃ path,
      Rule.compile S model rules (some joins) reflector = .error (.notJoined path)) ∧
    ∀ path, Rule.compile S model rules (some joins) reflector = .error (.notJoined path) ↔
      joins.MissesFirst S reflector model rules path := by
  intro joins
  have hsound : joins.Sound S := (Sound.empty model reflector scope).after history
  have hmodel : joins.model = model := by
    obtain ⟨joined, hframe⟩ := after_frame (S := S) (empty model reflector scope) history
    exact congrArg JoinSet.model hframe
  have halike := hsound.compilesAlike_or reflector rules
  rw [hmodel] at halike
  have hmisses : ∀ path, Rule.compile S model rules (some joins) reflector =
      .error (.notJoined path) ↔ joins.MissesFirst S reflector model rules path :=
    fun path => Rule.compileFrom_eq_error_iff.trans Rule.firstFault_notJoined_iff
  refine ⟨fun hall => halike.resolve_right ?_, halike, hmisses⟩
  rintro ⟨path, hpath⟩
  exact not_missesFirst hall ((hmisses path).1 hpath)

/-- Where only the author is joined, the organization of the author is missed. -/
example :
    Rule.compile Sample.schema .post
      [⟨.bool true, .plain [(.text "author", .plain [(.text "organization",
        .plain [(.text "id", .int 1)])])], ""⟩]
      (some ((empty .post .empty 0).after Sample.schema [.add [.text "author"]])) .empty =
      .error (.notJoined ["author", "organization"]) := rfl

end JoinSet

end RowAccess
