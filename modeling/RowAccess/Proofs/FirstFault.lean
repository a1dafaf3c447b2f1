import RowAccess.Proofs.DocumentOrder
import RowAccess.Proofs.Places
import RowAccess.Sample.Schema
/-!
# The first fault

A condition tree is refused for the first thing that is wrong with it, in the order in which it is
written: positions count the entries that are gone through, so that their order is that of the
document. Rules are refused for the first fault of the first rule that has one, as long as no rule
without conditions comes before it.
-/

namespace RowAccess

variable {M : Type}

/-- All declarations of enumeration attributes can be read. -/
def Schema.Readable (S : Schema M) : Prop :=
  ∀ model key declaration, (S.model model).declaration? key = some declaration →
    ∃ names, declaration.names = .ok names

/-- A fault stands at a position of the entries of a tree. -/
def FaultAt [DecidableEq M] (S : Schema M) (reflector : Reflector M) (joins : Option (JoinSet M))
    (model : M) (path : JoinPath) (entries : List (Value × Value)) (position : List Nat)
    (fault : Fault) : Prop :=
  ∃ place, PlaceAt S model path entries position place ∧ place.Flawed S reflector joins fault

/-- A fault stands at a position of a rule: conditions that are no mapping are a fault at its root.
-/
def Rule.FaultAt [DecidableEq M] (S : Schema M) (reflector : Reflector M)
    (joins : Option (JoinSet M)) (model : M) (rule : Rule) (position : List Nat) (fault : Fault) :
    Prop :=
  match rule.conditions with
  | .mapping _ entries => RowAccess.FaultAt S reflector joins model [] entries position fault
  | other => position = [] ∧ fault = .malformedTree .null other .notMapping

/-- A rule without conditions: an empty mapping, however it is packed. -/
def Rule.Bare (rule : Rule) : Prop := ∃ packing, rule.conditions = .mapping packing []

/-- A rule that the fold goes on from: it has conditions, and nothing is wrong with them. -/
def Rule.Passes [DecidableEq M] (S : Schema M) (reflector : Reflector M)
    (joins : Option (JoinSet M)) (model : M) (rule : Rule) : Prop :=
  ¬ rule.Bare ∧ ∀ position fault, ¬ rule.FaultAt S reflector joins model position fault

/-- The fault that comes first in a list of rules: the first of a rule that is reached because all
rules before it pass. -/
def Rule.FirstFault [DecidableEq M] (S : Schema M) (reflector : Reflector M)
    (joins : Option (JoinSet M)) (model : M) (rules : List Rule) (fault : Fault) : Prop :=
  ∃ before rule after, rules = before ++ rule :: after ∧
    (∀ r ∈ before, r.Passes S reflector joins model) ∧
    IsFirst (rule.FaultAt S reflector joins model) fault

/-! ## Trees -/

section Trees

variable [DecidableEq M] {S : Schema M} {model : M} {path : JoinPath}
  {entries : List (Value × Value)} {reflector : Reflector M} {joins : Option (JoinSet M)}

theorem not_faultAt_nil {fault : Fault} :
    ¬ FaultAt S reflector joins model path entries [] fault :=
  fun ⟨_, hplace, _⟩ => not_placeAt_nil hplace

theorem not_faultAt_no_entries {position : List Nat} {fault : Fault} :
    ¬ FaultAt S reflector joins model path [] position fault := by
  rintro ⟨place, hplace, -⟩
  cases position with
  | nil => exact not_placeAt_nil hplace
  | cons index position =>
      obtain ⟨key, value, hentry, -⟩ := placeAt_cons.1 hplace
      simp at hentry

/-- The faults of an entry are what is wrong at its place and the faults of its nested tree. -/
theorem faultAt_cons {index : Nat} {position : List Nat} {fault : Fault} :
    FaultAt S reflector joins model path entries (index :: position) fault ↔
      ∃ key value, entries[index]? = some (key, value) ∧
        (position = [] ∧ Place.Flawed S reflector joins ⟨model, path, key, value⟩ fault ∨
          ∃ packing nested r, value = .mapping packing nested ∧ S.relationship model key = .ok r ∧
            FaultAt S reflector joins r.target (path ++ [r.name]) nested position fault) := by
  unfold FaultAt
  constructor
  · rintro ⟨place, hplace, hflawed⟩
    obtain ⟨key, value, hentry, ⟨rfl, rfl⟩ | ⟨packing, nested, r, rfl, hr, hinner⟩⟩ :=
      placeAt_cons.1 hplace
    · exact ⟨key, value, hentry, .inl ⟨rfl, hflawed⟩⟩
    · exact ⟨key, _, hentry, .inr ⟨packing, nested, r, rfl, hr, place, hinner, hflawed⟩⟩
  · rintro ⟨key, value, hentry, ⟨rfl, hflawed⟩ |
      ⟨packing, nested, r, rfl, hr, place, hinner, hflawed⟩⟩
    · exact ⟨_, .here hentry, hflawed⟩
    · exact ⟨place, .inside hentry hr hinner, hflawed⟩

theorem exists_of_faultAt_single {key value : Value} {position : List Nat} {fault : Fault}
    (h : FaultAt S reflector joins model path [(key, value)] position fault) :
    ∃ inner, position = 0 :: inner := by
  cases position with
  | nil => exact absurd h not_faultAt_nil
  | cons index inner =>
      obtain ⟨key', value', hentry, -⟩ := faultAt_cons.1 h
      cases index with
      | zero => exact ⟨inner, rfl⟩
      | succ index => cases hentry

section Compiling

variable {p : Position M} {key : Value} {comparator : Comparator} {rest : List (Value × Value)}

/-- Where the entry's place is all there is, its faults are those of the place. -/
theorem faultAt_root_iff {value : Value}
    (hinner : ∀ packing nested r, value = .mapping packing nested →
      S.relationship model key ≠ .ok r) {position : List Nat} {fault : Fault} :
    FaultAt S reflector joins model path ((key, value) :: rest) (0 :: position) fault ↔
      position = [] ∧ Place.Flawed S reflector joins ⟨model, path, key, value⟩ fault := by
  rw [faultAt_cons]
  constructor
  · rintro ⟨key', value', hentry, ⟨hposition, hflawed⟩ | ⟨packing, nested, r, htree, hr, -⟩⟩
    · cases hentry
      exact ⟨hposition, hflawed⟩
    · cases hentry
      exact absurd hr (hinner packing nested r htree)
  · rintro ⟨hposition, hflawed⟩
    exact ⟨key, value, rfl, .inl ⟨hposition, hflawed⟩⟩

theorem comparison_finds_no_text (hkey : key.text? = none) (value : Value) :
    Finds (Position.comparison S comparator p key value)
      (fun position => FaultAt S p.reflector p.joins p.model p.path ((key, value) :: rest)
        (0 :: position)) := by
  apply Finds.of_root (Position.comparison_of_no_text comparator p hkey value)
  intro e
  rw [faultAt_root_iff fun _ _ r _ => Schema.relationship_ne_ok hkey r, flawed_of_no_text hkey]
  simp

theorem comparison_finds_leaf {name : String} {value : Value} (hkey : key.text? = some name)
    (hvalue : value.isMapping = false) :
    Finds (Position.comparison S comparator p key value)
      (fun position => FaultAt S p.reflector p.joins p.model p.path ((key, value) :: rest)
        (0 :: position)) := by
  rw [Position.comparison_leaf comparator p hkey hvalue]
  refine (Finds.of_only_root fun e => ?_).congr fun position e => faultAt_root_iff ?_
  · rw [Success.map_eq_error_iff]
    exact readLeaf_eq_error_iff_flawed (p := ⟨p.model, p.path, key, value⟩) hkey hvalue
  · rintro packing nested r rfl
    cases hvalue

/-- The faults of an entry with a nested tree that can be gone into are what is wrong at its place
and the faults of the tree. -/
theorem faultAt_nested_iff {packing : Packing} {nested : List (Value × Value)}
    {r : Relationship M} (hr : S.relationship model key = .ok r) {position : List Nat}
    {fault : Fault} :
    FaultAt S reflector joins model path ((key, .mapping packing nested) :: rest) (0 :: position)
        fault ↔
      position = [] ∧ Place.Flawed S reflector joins
        ⟨model, path, key, .mapping packing nested⟩ fault ∨
      FaultAt S reflector joins r.target (path ++ [r.name]) nested position fault := by
  rw [faultAt_cons]
  constructor
  · rintro ⟨key', value', hentry, hroot | ⟨packing', nested', r', htree, hr', hinner⟩⟩
    · cases hentry
      exact .inl hroot
    · cases hentry
      cases htree
      obtain rfl := Except.ok.inj (hr.symm.trans hr')
      exact .inr hinner
  · rintro (hroot | hinner)
    · exact ⟨key, _, rfl, .inl hroot⟩
    · exact ⟨key, _, rfl, .inr ⟨packing, nested, r, rfl, hr, hinner⟩⟩

variable {packing : Packing} {nested : List (Value × Value)}

/-- Without a relationship to go along, nothing in a nested tree is read. -/
theorem comparison_finds_no_relationship {name : String} (hkey : key.text? = some name)
    (hfound : (S.model p.model).relationship? name = none) :
    Finds (Position.comparison S comparator p key (.mapping packing nested))
      (fun position => FaultAt S p.reflector p.joins p.model p.path
        ((key, .mapping packing nested) :: rest) (0 :: position)) := by
  have hmissing := (Schema.relationship_eq_error_iff hkey).2 ⟨hfound, rfl⟩
  have hcomparison : Position.comparison S comparator p key (.mapping packing nested) =
      .error (.noRelationship (S.model p.model).name key) := by
    rw [Position.comparison_nested comparator p hkey, Position.descend, hmissing]
    rfl
  refine Finds.of_root hcomparison fun e => ?_
  rw [faultAt_root_iff, flawed_of_no_relationship hkey rfl hfound]
  · simp
  · rintro _ _ r - hr
    rw [hmissing] at hr
    cases hr

/-- A nested tree that is gone into is refused for being empty, or else for what is wrong in it. -/
theorem comparison_finds_descended {child : Position M} {r : Relationship M}
    (hr : S.relationship p.model key = .ok r) (hchild : p.descend S key = .ok child)
    (ih : Finds (Position.comparisons S comparator child nested)
      (FaultAt S child.reflector child.joins child.model child.path nested)) :
    Finds (Position.comparison S comparator p key (.mapping packing nested))
      (fun position => FaultAt S p.reflector p.joins p.model p.path
        ((key, .mapping packing nested) :: rest) (0 :: position)) := by
  obtain ⟨name, hkey, -⟩ := Schema.relationship_eq_ok_iff.1 hr
  obtain ⟨⟨source, rfl⟩, hjoined⟩ := Position.facts_of_descend hr hchild
  rw [Position.comparison_nested comparator p hkey, Success.bind_ok hchild]
  cases nested with
  | nil =>
      rw [Position.comparisons]
      refine Finds.of_root rfl fun e => ?_
      rw [faultAt_nested_iff hr, flawed_joined_iff hr rfl hjoined]
      simp [not_faultAt_no_entries]
  | cons first others =>
      refine (ih.bind_ok fun filters hfilters => ?_).congr fun position e => ?_
      · exact Position.exists_conjunction_cons hfilters
      · rw [faultAt_nested_iff hr, flawed_joined_iff hr rfl hjoined]
        simp

theorem comparison_finds_nested {name : String} (hkey : key.text? = some name)
    (ih : ∀ child : Position M, Finds (Position.comparisons S comparator child nested)
      (FaultAt S child.reflector child.joins child.model child.path nested)) :
    Finds (Position.comparison S comparator p key (.mapping packing nested))
      (fun position => FaultAt S p.reflector p.joins p.model p.path
        ((key, .mapping packing nested) :: rest) (0 :: position)) := by
  cases hfound : (S.model p.model).relationship? name with
  | none => exact comparison_finds_no_relationship hkey hfound
  | some r =>
      have hr := Schema.relationship_eq_ok_iff.2 ⟨name, hkey, hfound⟩
      cases hdescend : p.descend S key with
      | ok child => exact comparison_finds_descended hr hdescend (ih child)
      | error cause =>
          obtain ⟨joined, hjoins, hpath, rfl⟩ := (Position.descend_eq_error_iff hr).1 hdescend
          rw [Position.comparison_nested comparator p hkey, hdescend]
          refine Finds.of_root rfl fun e => ?_
          rw [faultAt_nested_iff hr, flawed_nested_iff hr rfl]
          simp [hjoins, hpath, not_faultAt_nil]

end Compiling

/-- A tree is compiled entry by entry, so it is refused for its first fault. -/
theorem comparisons_finds (comparator : Comparator) (entries : List (Value × Value))
    (p : Position M) :
    Finds (Position.comparisons S comparator p entries)
      (FaultAt S p.reflector p.joins p.model p.path entries) := by
  have hcons : ∀ (key value : Value) (rest : List (Value × Value)) (p : Position M),
      Finds (Position.comparison S comparator p key value)
        (fun position => FaultAt S p.reflector p.joins p.model p.path ((key, value) :: rest)
          (0 :: position)) →
      Finds (Position.comparisons S comparator p rest)
        (FaultAt S p.reflector p.joins p.model p.path rest) →
      Finds (Position.comparisons S comparator p ((key, value) :: rest))
        (FaultAt S p.reflector p.joins p.model p.path ((key, value) :: rest)) := by
    intro key value rest p hfirst hrest
    rw [Position.comparisons_cons]
    refine hfirst.cons hrest (fun _ => not_faultAt_nil) (fun _ _ => Iff.rfl) (fun _ _ _ => ?_)
      fun _ => not_faultAt_nil
    simp only [faultAt_cons, List.getElem?_cons_succ]
  induction entries using Value.entries_induction generalizing p with
  | nil => exact ⟨fun e => by simp [Position.comparisons, IsFirst, not_faultAt_no_entries],
      fun _ _ _ _ => not_faultAt_no_entries⟩
  | leaf key value rest hvalue ih =>
      refine hcons key value rest p ?_ (ih p)
      cases hkey : key.text? with
      | none => exact comparison_finds_no_text hkey value
      | some name => exact comparison_finds_leaf hkey hvalue
  | nested key packing entries rest ihEntries ihRest =>
      refine hcons key _ rest p ?_ (ihRest p)
      cases hkey : key.text? with
      | none => exact comparison_finds_no_text hkey _
      | some name => exact comparison_finds_nested hkey ihEntries

end Trees

/-! ## Rules -/

namespace Rule

variable [DecidableEq M] {S : Schema M} {reflector : Reflector M} {joins : Option (JoinSet M)}
  {model : M} {rule : Rule} {rules : List Rule}

theorem faultAt_tree {packing : Packing} {entries : List (Value × Value)}
    (hrule : rule.conditions = .mapping packing entries) {position : List Nat} {fault : Fault} :
    rule.FaultAt S reflector joins model position fault ↔
      RowAccess.FaultAt S reflector joins model [] entries position fault := by
  simp only [FaultAt, hrule]

theorem PlaceAt.faultAt {position : List Nat} {place : Place M} {fault : Fault}
    (hplace : rule.PlaceAt S model position place)
    (hflawed : place.Flawed S reflector joins fault) :
    rule.FaultAt S reflector joins model position fault := by
  obtain ⟨packing, entries, hrule, hplace⟩ := hplace
  exact (faultAt_tree hrule).2 ⟨place, hplace, hflawed⟩

theorem faultAt_not_tree (hrule : rule.conditions.isMapping = false) {position : List Nat}
    {fault : Fault} :
    rule.FaultAt S reflector joins model position fault ↔
      position = [] ∧ fault = .malformedTree .null rule.conditions .notMapping := by
  unfold FaultAt
  split
  · rename_i packing entries htree
    rw [htree] at hrule
    cases hrule
  · exact Iff.rfl

/-- A fault of a rule is that of its conditions as such, or what is wrong at a place. -/
theorem faultAt_iff {position : List Nat} {fault : Fault} :
    rule.FaultAt S reflector joins model position fault ↔
      (rule.conditions.isMapping = false ∧ position = [] ∧
        fault = .malformedTree .null rule.conditions .notMapping) ∨
      ∃ place, rule.PlaceAt S model position place ∧ place.Flawed S reflector joins fault := by
  cases htree : rule.conditions.isMapping with
  | false =>
      rw [faultAt_not_tree htree, and_iff_right rfl, or_iff_left]
      rintro ⟨place, ⟨packing, entries, hrule, -⟩, -⟩
      rw [hrule] at htree
      cases htree
  | true =>
      obtain ⟨packing, entries, hrule⟩ := Value.isMapping_iff.1 htree
      rw [faultAt_tree hrule, or_iff_right (by simp)]
      constructor
      · rintro ⟨place, hplace, hflawed⟩
        exact ⟨place, ⟨packing, entries, hrule, hplace⟩, hflawed⟩
      · rintro ⟨place, hplace, hflawed⟩
        exact (faultAt_tree hrule).1 (hplace.faultAt hflawed)

theorem filter?_eq_none_iff (S : Schema M) (model : M) (joins : Option (JoinSet M))
    (reflector : Reflector M) (rule : Rule) :
    rule.filter? S model joins reflector = .ok none ↔ rule.Bare := by
  refine ⟨conditions_of_filter?_eq_none, ?_⟩
  rintro ⟨packing, hbare⟩
  rw [filter?, hbare]
  rfl

/-- A rule is refused for its first fault. -/
theorem filter?_finds (S : Schema M) (model : M) (joins : Option (JoinSet M))
    (reflector : Reflector M) (rule : Rule) :
    Finds (rule.filter? S model joins reflector) (rule.FaultAt S reflector joins model) := by
  cases htree : rule.conditions.isMapping with
  | false =>
      have hfilter : rule.filter? S model joins reflector =
          .error (.malformedTree .null rule.conditions .notMapping) := by
        unfold filter?
        split
        · rename_i packing entries hrule
          rw [hrule] at htree
          cases htree
        · rfl
      refine Finds.of_root hfilter fun e => ?_
      rw [faultAt_not_tree htree, and_iff_right rfl]
  | true =>
      obtain ⟨packing, entries, hrule⟩ := Value.isMapping_iff.1 htree
      refine Finds.congr ?_ fun position e => faultAt_tree hrule
      rw [filter?, hrule]
      cases entries with
      | nil => exact ⟨fun e => by simp [IsFirst, not_faultAt_no_entries],
          fun _ _ _ _ => not_faultAt_no_entries⟩
      | cons first others =>
          refine ((comparisons_finds rule.comparator (first :: others) (.root model joins
            reflector)).bind_ok fun filters hfilters => ?_).map some
          exact Position.exists_conjunction_cons hfilters

theorem passes_iff : rule.Passes S reflector joins model ↔
    ∃ filter, rule.filter? S model joins reflector = .ok (some filter) := by
  rw [Passes, ← (filter?_finds S model joins reflector rule).ok_iff,
    ← filter?_eq_none_iff S model joins reflector rule]
  constructor
  · rintro ⟨hsome, found, hfound⟩
    cases found with
    | none => exact absurd hfound hsome
    | some filter => exact ⟨filter, hfound⟩
  · rintro ⟨filter, hfilter⟩
    rw [hfilter]
    exact ⟨by simp, some filter, rfl⟩

theorem firstFault_nil {fault : Fault} : ¬ FirstFault S reflector joins model [] fault := by
  rintro ⟨before, rule, after, heq, -⟩
  simp at heq

theorem firstFault_cons {fault : Fault} :
    FirstFault S reflector joins model (rule :: rules) fault ↔
      IsFirst (rule.FaultAt S reflector joins model) fault ∨
        rule.Passes S reflector joins model ∧ FirstFault S reflector joins model rules fault := by
  constructor
  · rintro ⟨_ | ⟨first, before⟩, faulty, after, heq, hbefore, hfirst⟩
    · obtain ⟨rfl, rfl⟩ := List.cons.inj heq
      exact .inl hfirst
    · obtain ⟨rfl, rfl⟩ := List.cons.inj heq
      rw [List.forall_mem_cons] at hbefore
      exact .inr ⟨hbefore.1, before, faulty, after, rfl, hbefore.2, hfirst⟩
  · rintro (hfirst | ⟨hpasses, before, faulty, after, rfl, hbefore, hfirst⟩)
    · exact ⟨[], rule, rules, rfl, by simp, hfirst⟩
    · exact ⟨rule :: before, faulty, after, rfl, List.forall_mem_cons.2 ⟨hpasses, hbefore⟩, hfirst⟩

theorem compileFrom_eq_error_iff {position : Nat} {before : Option (Filter M)} {fault : Fault} :
    compileFrom S model joins reflector position before rules = .error fault ↔
      FirstFault S reflector joins model rules fault := by
  induction rules generalizing position before with
  | nil => simp [compileFrom, firstFault_nil]
  | cons rule rules ih =>
      rw [compileFrom, Success.bind_eq_error_iff, firstFault_cons,
        (filter?_finds S model joins reflector rule).error_iff, passes_iff]
      refine or_congr_right ?_
      constructor
      · rintro ⟨_ | filter, hfilter, hrest⟩
        · cases hrest
        · exact ⟨⟨filter, hfilter⟩, ih.1 hrest⟩
      · rintro ⟨⟨filter, hfilter⟩, hrest⟩
        exact ⟨some filter, hfilter, ih.2 hrest⟩

/-- Some rule is refused exactly if one has a fault and no rule without conditions comes before. -/
theorem exists_firstFault_iff :
    (∃ fault, FirstFault S reflector joins model rules fault) ↔
      ∃ before rule after, rules = before ++ rule :: after ∧ (∀ r ∈ before, ¬ r.Bare) ∧
        ∃ position fault, rule.FaultAt S reflector joins model position fault := by
  constructor
  · rintro ⟨fault, before, rule, after, rfl, hbefore, position, hfault, -⟩
    exact ⟨before, rule, after, rfl, fun r hr => (hbefore r hr).1, position, fault, hfault⟩
  · rintro ⟨before, rule, after, rfl, hbefore, position, fault, hfault⟩
    induction before with
    | nil =>
        obtain ⟨e, he⟩ := (filter?_finds S model joins reflector rule).exists_first hfault
        exact ⟨e, firstFault_cons.2 (.inl he)⟩
    | cons first before ih =>
        rw [List.forall_mem_cons] at hbefore
        by_cases hfirst : ∃ position e, first.FaultAt S reflector joins model position e
        · obtain ⟨position, e, he⟩ := hfirst
          obtain ⟨e, he⟩ := (filter?_finds S model joins reflector first).exists_first he
          exact ⟨e, firstFault_cons.2 (.inl he)⟩
        · obtain ⟨e, he⟩ := ih hbefore.2
          push Not at hfirst
          exact ⟨e, firstFault_cons.2 (.inr ⟨⟨hbefore.1, hfirst⟩, he⟩)⟩

/-- Rules that compile filter nothing exactly if there are none or one of them has no conditions. -/
theorem filter?_eq_none_of_compileFrom {position : Nat} {before : Option (Filter M)}
    {restriction : Restriction M}
    (h : compileFrom S model joins reflector position before rules = .ok restriction) :
    restriction.filter? = none ↔ (rules = [] ∧ before = none) ∨ ∃ rule ∈ rules, rule.Bare := by
  induction rules generalizing position before with
  | nil =>
      cases h
      cases before <;> simp [Restriction.filter?]
  | cons rule rules ih =>
      obtain ⟨found, hfound, hrest⟩ := Success.bind_eq_ok_iff.1 h
      cases found with
      | none =>
          cases hrest
          simp [Restriction.filter?, (filter?_eq_none_iff S model joins reflector rule).1 hfound]
      | some filter =>
          have hconditional : ¬ rule.Bare := by
            rw [← filter?_eq_none_iff S model joins reflector rule, hfound]
            simp
          simp [ih hrest, hconditional]

/-- The kind of an attribute is only refused for a declaration that cannot be read. -/
theorem exists_kind (hreadable : S.Readable) (reflector : Reflector M) (model : M)
    (key : String) : ∃ kind, reflector.kind S model key = .ok kind := by
  unfold Reflector.kind
  split
  · exact ⟨_, rfl⟩
  · unfold Reflector.declaredKind
    split
    · exact ⟨_, rfl⟩
    · split
      · rename_i declaration hdeclaration
        obtain ⟨names, hnames⟩ := hreadable model key declaration hdeclaration
        exact ⟨_, Success.map_eq_ok_iff.2 ⟨names, hnames, rfl⟩⟩
      · exact ⟨_, rfl⟩

/-- Where all declarations can be read, every fault is a malformed tree, a name that a model lacks
or a value that an enumeration lacks. -/
theorem kind_of_faultAt (hreadable : S.Readable) {position : List Nat} {fault : Fault}
    (h : rule.FaultAt S reflector none model position fault) :
    (∃ key value malformation, fault = .malformedTree key value malformation) ∨
      (∃ m key sought, fault = .schemaMismatch m key sought) ∨
      ∃ m key value, fault = .invalidEnumValue m key value := by
  rcases faultAt_iff.1 h with ⟨-, -, rfl⟩ | ⟨place, -, hflawed⟩
  · exact .inl ⟨_, _, _, rfl⟩
  · cases hflawed with
    | keyNotText | empty | unsupported => exact .inl ⟨_, _, _, rfl⟩
    | relationship | column => exact .inr (.inl ⟨_, _, _, rfl⟩)
    | undecodable => exact .inr (.inr ⟨_, _, _, rfl⟩)
    | notJoined _ _ hjoins => cases hjoins
    | declaration _ _ hkind =>
        obtain ⟨kind, hok⟩ := exists_kind hreadable reflector place.model _
        rw [hok] at hkind
        cases hkind

/-- Without joins rules are refused exactly if one of them has a fault and no rule without
conditions comes before it, and then for the first fault of the first such rule. Otherwise they
filter nothing exactly if there are none or one of them has no conditions. -/
theorem compile_eq_error_iff_firstFault (S : Schema M) (model : M) (rules : List Rule)
    (reflector : Reflector M) :
    ((∃ fault, compile S model rules none reflector = .error fault) ↔
      ∃ before rule after, rules = before ++ rule :: after ∧ (∀ r ∈ before, ¬ r.Bare) ∧
        ∃ position fault, rule.FaultAt S reflector none model position fault) ∧
    (∀ fault, compile S model rules none reflector = .error fault ↔
      FirstFault S reflector none model rules fault) ∧
    (∀ restriction, compile S model rules none reflector = .ok restriction →
      (restriction.filter? = none ↔ rules = [] ∨ ∃ rule ∈ rules, rule.Bare)) ∧
    (S.Readable → ∀ (r : Rule) position fault, r.FaultAt S reflector none model position fault →
      (∃ key value malformation, fault = .malformedTree key value malformation) ∨
        (∃ m key sought, fault = .schemaMismatch m key sought) ∨
        ∃ m key value, fault = .invalidEnumValue m key value) := by
  refine ⟨?_, fun fault => compileFrom_eq_error_iff, fun restriction h => ?_,
    fun hreadable r position fault => kind_of_faultAt hreadable⟩
  · rw [← exists_firstFault_iff]
    exact exists_congr fun fault => compileFrom_eq_error_iff
  · simpa using filter?_eq_none_of_compileFrom h

/-- A value that cannot be decoded, deep in the tree, comes before a key that is no text. -/
example :
    compile Sample.schema .user
      [⟨.bool true, .plain [(.text "posts", .plain [(.text "status", .list [.int 1, .int 7])]),
        (.int 5, .null)], ""⟩] none .empty =
      .error (.invalidEnumValue (.text "Post") (.text "status") (.int 7)) := rfl

end Rule

end RowAccess
