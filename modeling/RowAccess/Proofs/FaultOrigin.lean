import RowAccess.Accessible
import RowAccess.Proofs.AppliedRules
import RowAccess.Proofs.FirstFault
/-!
# Where faults come from

Reading conditions, joining their paths and compiling rules fail in many ways, but always with a
complaint about what was handed in. The complaint that no rules are registered has a single other
place of origin, the decision about an entity without rules. And the source of a path that is not
joined is never asked for: the plan of the joins and the compilation of a tree go through the same
paths.
-/

namespace RowAccess

/-- A complaint about what was handed in: conditions, declared enumerations or an action. -/
def Fault.OfInput : Fault → Prop
  | .schemaMismatch _ _ _ | .invalidEnumValue _ _ _ | .malformedTree _ _ _ | .unhashable _
  | .notIterable _ | .notSequence _ | .notPair _ _ => True
  | _ => False

open Success

variable {M : Type} {S : Schema M} {e : Fault}

/-! ## Reading conditions -/

theorem Schema.relationship_error {model : M} {name : Value}
    (h : S.relationship model name = .error e) : e.OfInput := by
  unfold relationship at h
  split at h
  · cases h
    trivial
  · split at h
    · cases h
    · cases h
      trivial

theorem Declaration.entriesOfPairs_error {position : Nat} {items : List Value}
    (h : entriesOfPairs position items = .error e) : e.OfInput := by
  induction items generalizing position with
  | nil => cases h
  | cons item rest ih =>
      unfold entriesOfPairs at h
      split at h
      · cases h
        trivial
      · split at h
        · cases h
          trivial
        · exact ih (map_eq_error_iff.1 h)
      · cases h
        trivial

theorem Declaration.names_error {d : Declaration} (h : d.names = .error e) : e.OfInput := by
  cases d with
  | ofEnumeration enumeration => cases h
  | ofValue v =>
      change entriesOfValue v = .error e at h
      unfold entriesOfValue at h
      split at h
      · cases h
      · split at h
        · exact entriesOfPairs_error (map_eq_error_iff.1 h)
        · cases h
          trivial

/-! ## Joining paths -/

namespace JoinSet

theorem extend_error {names : List Value} {done : JoinPath} {model : M} {joins : JoinSet M}
    (h : (extend S done model names joins).2 = some e) : e.OfInput := by
  induction names generalizing done model joins with
  | nil => cases h
  | cons name names ih =>
      unfold extend at h
      cases hr : S.relationship model name with
      | error fault =>
          rw [hr] at h
          cases h
          exact Schema.relationship_error hr
      | ok r =>
          rw [hr] at h
          exact ih h

theorem add_error {path : List Value} {joins : JoinSet M} (h : (joins.add S path).2 = some e) :
    e.OfInput := by
  unfold add at h
  split at h
  · cases h
    trivial
  · exact extend_error h

/-- The first path that cannot be joined is what a list of paths is refused for. -/
theorem exists_add_of_addAll {paths : List (List Value)} {joins : JoinSet M} {fault : Fault}
    (h : (joins.addAll S paths).2 = some fault) :
    ∃ names ∈ paths, ∃ before : JoinSet M, before.model = joins.model ∧
      (before.add S names).2 = some fault := by
  induction paths generalizing joins with
  | nil => cases h
  | cons names paths ih =>
      obtain ⟨joined, hframe⟩ := add_frame (S := S) joins names
      unfold addAll at h
      cases hstep : joins.add S names with
      | mk after cause =>
          rw [hstep] at h hframe
          cases cause with
          | some cause =>
              cases h
              exact ⟨names, by simp, joins, rfl, by rw [hstep]⟩
          | none =>
              obtain ⟨later, hlater, before, hmodel, hadd⟩ := ih h
              refine ⟨later, by simp [hlater], before, hmodel.trans ?_, hadd⟩
              rw [show after = _ from hframe]

theorem addAll_error {paths : List (List Value)} {joins : JoinSet M}
    (h : (joins.addAll S paths).2 = some e) : e.OfInput := by
  obtain ⟨names, -, before, -, hadd⟩ := exists_add_of_addAll h
  exact add_error hadd

end JoinSet

variable [DecidableEq M]

theorem Reflector.kind_error {reflector : Reflector M} {model : M} {key : String}
    (h : reflector.kind S model key = .error e) : e.OfInput := by
  unfold kind at h
  split at h
  · cases h
  · unfold declaredKind at h
    split at h
    · cases h
    · split at h
      · exact Declaration.names_error (map_eq_error_iff.1 h)
      · cases h

/-! ## Compiling rules -/

/-- Where the path that is asked for is joined, what is wrong at a place was handed in. -/
theorem Place.Flawed.ofInput {reflector : Reflector M} {joins : JoinSet M} {p : Place M}
    (hjoined : ∀ path, p.Asks S path → path ∈ joins.paths)
    (h : p.Flawed S reflector (some joins) e) : e.OfInput := by
  cases h with
  | notJoined hr hvalue hjoins hpath =>
      cases hjoins
      exact absurd (hjoined _ ⟨hvalue, _, hr, rfl⟩) hpath
  | declaration _ _ hkind => exact Reflector.kind_error hkind
  | keyNotText | relationship | empty | column | unsupported | undecodable => trivial

/-- Rules whose nested trees are all joined fail with a complaint about what was handed in. -/
theorem Rule.compileFrom_error {model : M} {joins : JoinSet M} {reflector : Reflector M}
    {position : Nat} {before : Option (Filter M)} {rules : List Rule}
    (hjoined : ∀ rule ∈ rules, ∀ path, rule.conditions.NestedAt path → path ∈ joins.paths)
    (h : compileFrom S model (some joins) reflector position before rules = .error e) :
    e.OfInput := by
  obtain ⟨earlier, rule, later, rfl, -, there, hfault, -⟩ := compileFrom_eq_error_iff.1 h
  rcases faultAt_iff.1 hfault with ⟨-, -, rfl⟩ | ⟨place, hplace, hflawed⟩
  · trivial
  · refine hflawed.ofInput fun path hasks => hjoined rule (by simp) path ?_
    have hasked : rule.Asks S model there path := ⟨place, hplace, hasks⟩
    exact Value.exists_joinPaths_iff.1 hasked.planned

/-- Restricting a statement by rules complains about nothing but what was handed in. -/
theorem Select.restrict_error {statement : Select M} {model : M} {rules : List Rule}
    {reflector : Reflector M} (h : statement.restrict S model rules reflector = .error e) :
    e.OfInput := by
  unfold restrict at h
  cases hjoins : statement.joinsFor S model rules reflector with
  | mk joins fault =>
      rw [hjoins] at h
      cases fault with
      | some fault =>
          cases h
          exact JoinSet.addAll_error (congrArg Prod.snd hjoins)
      | none =>
          rcases bind_eq_error_iff.1 h with hcompile | ⟨restriction, -, h⟩
          · refine Rule.compileFrom_error (fun rule hrule path hpath => ?_) hcompile
            exact (JoinSet.mem_paths_joinsFor hjoins).2 ⟨rule, hrule, hpath⟩
          · cases h

/-- Evaluating rules complains about what was handed in, or in the words of a rule function. -/
theorem Registry.evaluate_error {registry : Registry M} {model : M} {a : Value} {actor : Actor}
    (h : registry.evaluate S model a actor = .error e) :
    e.OfInput ∨ ∃ r ∈ registry.entriesFor model a, r.build actor = .error e := by
  have haction : ∀ {fault}, checkAction a = .error fault → fault.OfInput := by
    intro fault hfault
    unfold checkAction at hfault
    split at hfault
    · cases hfault
      trivial
    · cases hfault
  unfold evaluate lookup at h
  rcases bind_eq_error_iff.1 h with h | ⟨registrations, hregistrations, h⟩
  · rcases bind_eq_error_iff.1 h with h | ⟨-, -, h⟩
    · exact .inl (haction h)
    · cases h
  · obtain ⟨-, -, heq⟩ := bind_eq_ok_iff.1 hregistrations
    obtain rfl := Except.ok.inj heq
    obtain ⟨r, hr, hrule⟩ := exists_of_mapM_error h
    unfold checkedRule at hrule
    rcases bind_eq_error_iff.1 hrule with hbuild | ⟨rule, -, h⟩
    · exact .inr ⟨r, hr, map_eq_error_iff.1 hbuild⟩
    · split at h
      · cases h
      · cases h
        exact .inl trivial

end RowAccess
