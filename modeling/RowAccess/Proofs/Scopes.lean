import RowAccess.Proofs.AppliedRules
import RowAccess.Proofs.FirstFault
import RowAccess.Proofs.OtherSources
/-!
# Join sets in other scopes

The scope of a join set only tells its joins apart from those of other join sets. Gathered in
another scope, the same rules need the same joins and compile to the same filters with the sources
renamed, and they admit the same rows.
-/

namespace RowAccess

/-- The source a joined path has in another scope; all other sources stay as they are. -/
def Source.rescope {M : Type} (k : Nat) (source : Source M) : Source M :=
  match source.role with
  | .joined _ path => ⟨source.model, .joined k path⟩
  | _ => source

/-- A filter that reads joined paths in another scope. -/
def Filter.rescope {M : Type} (k : Nat) : Filter M → Filter M
  | .compare comparator c v => .compare comparator ⟨c.source.rescope k, c.column⟩ v
  | .isNull c => .isNull ⟨c.source.rescope k, c.column⟩
  | .isNotNull c => .isNotNull ⟨c.source.rescope k, c.column⟩
  | .among c values => .among ⟨c.source.rescope k, c.column⟩ values
  | .notAmong c values => .notAmong ⟨c.source.rescope k, c.column⟩ values
  | .both left right => .both (left.rescope k) (right.rescope k)
  | .either left right => .either (left.rescope k) (right.rescope k)
  | .never => .never

/-- A restriction that reads joined paths in another scope. -/
def Restriction.rescope {M : Type} (k : Nat) : Restriction M → Restriction M
  | .filtered f => .filtered (f.rescope k)
  | .absent => .absent
  | .lifted position rule => .lifted position rule

/-- The same join set in another scope. -/
def JoinSet.rescope {M : Type} (k : Nat) (joins : JoinSet M) : JoinSet M :=
  { joins with scope := k }

/-- The same position among joins in another scope. -/
def Position.rescope {M : Type} (k : Nat) (p : Position M) : Position M :=
  { p with source := p.source.rescope k, joins := p.joins.map (JoinSet.rescope k) }

section Filters

variable {M : Type} (k : Nat)

theorem Restriction.filter?_rescope (restriction : Restriction M) :
    (restriction.rescope k).filter? = restriction.filter?.map (Filter.rescope k) := by
  cases restriction <;> rfl

theorem Filter.isNever_rescope (f : Filter M) : (f.rescope k).isNever = f.isNever := by
  cases f <;> rfl

theorem Filter.checkValues_rescope (f : Filter M) : (f.rescope k).checkValues = f.checkValues := by
  induction f with
  | both left right ihleft ihright | either left right ihleft ihright =>
      simp only [rescope, checkValues, ihleft, ihright]
  | _ => rfl

/-- A filter in another scope is true of an assignment if it is true of what the assignment puts in
the other scope. -/
theorem Filter.truth_rescope (f : Filter M) (a : Assignment M) :
    (f.rescope k).truth a = f.truth fun s => a (s.rescope k) := by
  have hread : ∀ c : ColumnRef M, a.read ⟨c.source.rescope k, c.column⟩ =
      Assignment.read (fun s => a (s.rescope k)) c := by
    intro c
    rw [Assignment.read_eq, Assignment.read_eq]
  induction f with
  | compare comparator c v => cases comparator <;> simp only [rescope, truth, hread] <;> rfl
  | isNull c | isNotNull c | among c values | notAmong c values =>
      simp only [rescope, truth, hread] <;> rfl
  | both left right ihleft ihright | either left right ihleft ihright =>
      simp only [rescope, truth, ihleft, ihright]
  | never => rfl

theorem Filter.holds_rescope (f : Filter M) (a : Assignment M) :
    (f.rescope k).holds a = f.holds fun s => a (s.rescope k) := by
  rw [holds, holds, truth_rescope]

theorem Filter.mapSources_rescope (f : Filter M) :
    f.mapSources (Source.rescope k) = f.rescope k := by
  induction f with
  | both left right ihleft ihright | either left right ihleft ihright =>
      rw [mapSources, rescope, ihleft, ihright]
  | _ => rfl

theorem Restriction.mapSources_rescope (restriction : Restriction M) :
    restriction.mapSources (Source.rescope k) = restriction.rescope k := by
  cases restriction with
  | filtered f => rw [mapSources, rescope, Filter.mapSources_rescope]
  | absent | lifted position rule => rfl

end Filters

/-! ## Joining and compiling -/

namespace JoinSet

variable {M : Type} {S : Schema M} (k : Nat)

theorem sourceFor_rescope (joins : JoinSet M) (path : JoinPath) :
    (joins.rescope k).sourceFor path = (joins.sourceFor path).map (Source.rescope k) := by
  unfold sourceFor
  split
  · rfl
  · have hfind : (joins.rescope k).find? path = joins.find? path := rfl
    rw [hfind]
    cases joins.find? path <;> rfl

theorem insert_rescope (joins : JoinSet M) (j : Joined M) :
    (joins.rescope k).insert j = (joins.insert j).rescope k := by
  have hfind : (joins.rescope k).find? j.path = joins.find? j.path := rfl
  unfold insert
  rw [hfind]
  cases joins.find? j.path <;> rfl

theorem extend_rescope (names : List Value) (done : JoinPath) (model : M) (joins : JoinSet M) :
    extend S done model names (joins.rescope k) =
      ((extend S done model names joins).1.rescope k, (extend S done model names joins).2) := by
  induction names generalizing done model joins with
  | nil => rfl
  | cons name names ih =>
      unfold extend
      cases S.relationship model name with
      | error fault => rfl
      | ok r =>
          dsimp only
          rw [insert_rescope, ih]

theorem addAll_rescope (paths : List (List Value)) (joins : JoinSet M) :
    (joins.rescope k).addAll S paths =
      ((joins.addAll S paths).1.rescope k, (joins.addAll S paths).2) := by
  induction paths generalizing joins with
  | nil => rfl
  | cons path paths ih =>
      have hadd : (joins.rescope k).add S path =
          ((joins.add S path).1.rescope k, (joins.add S path).2) := by
        unfold add
        split
        · rfl
        · exact extend_rescope k path [] joins.model joins
      unfold addAll
      rw [hadd]
      cases joins.add S path with
      | mk after fault =>
          cases fault with
          | some fault => rfl
          | none => exact ih after

theorem joins_rescope (joins : JoinSet M) :
    (joins.rescope k).joins = joins.joins.map fun j =>
      ⟨j.parent.rescope k, j.relationship, j.target.rescope k⟩ := by
  unfold JoinSet.joins
  rw [List.map_map]
  apply List.map_congr_left
  intro j _
  have hparent : (joins.rescope k).parentOf j = (joins.parentOf j).rescope k := by
    unfold parentOf
    split <;> rfl
  simp only [Function.comp, hparent]
  rfl

theorem respects_rescope {db : Database M} {joins : JoinSet M} {a : Assignment M} :
    db.Respects (joins.rescope k).joins a ↔
      db.Respects joins.joins fun s => a (s.rescope k) := by
  rw [joins_rescope]
  simp [Database.Respects]

theorem Admits.of_rescope {db : Database M} {joins : JoinSet M} {filters : List (Filter M)}
    {x : Row} (h : (joins.rescope k).Admits db (filters.map (Filter.rescope k)) x) :
    joins.Admits db filters x := by
  obtain ⟨a, ha, hrespects, hholds⟩ := h
  refine ⟨fun s => a (s.rescope k), ha, (respects_rescope k).1 hrespects, fun f hf => ?_⟩
  rw [← Filter.holds_rescope]
  exact hholds _ (List.mem_map_of_mem hf)

end JoinSet

namespace Position

variable {M : Type} {S : Schema M} (k : Nat)

theorem descend_rescope (p : Position M) (name : Value) :
    (p.rescope k).descend S name = (p.descend S name).map (rescope k) := by
  unfold descend
  have hmodel : (p.rescope k).model = p.model := rfl
  rw [hmodel]
  cases S.relationship p.model name with
  | error fault => rfl
  | ok r =>
      obtain ⟨model, source, path, joins, reflector⟩ := p
      cases joins with
      | none => rfl
      | some joins =>
          simp only [rescope, bind, Except.bind, Option.map_some, JoinSet.sourceFor_rescope]
          cases joins.sourceFor (path ++ [r.name]) <;> rfl

/-- Positions in two scopes differ in their sources only. -/
theorem carries_rescope : Carries S (Source.rescope k) fun p q => q = p.rescope k where
  model := by
    rintro p _ rfl
    rfl
  reflector := by
    rintro p _ rfl
    rfl
  source := by
    rintro p _ rfl
    rfl
  descend := by
    rintro p _ key child rfl hchild
    exact ⟨child.rescope k, by rw [descend_rescope, hchild]; rfl, rfl⟩

end Position

namespace Rule

variable {M : Type} [DecidableEq M] {S : Schema M} (k : Nat)

/-- In another scope the same paths are joined, so the same fault comes first. -/
theorem firstFault_rescope {model : M} {joins : JoinSet M} {reflector : Reflector M}
    {rules : List Rule} {fault : Fault} :
    FirstFault S reflector (some (joins.rescope k)) model rules fault ↔
      FirstFault S reflector (some joins) model rules fault := by
  have hflaws : Place.Flawed S reflector (some (joins.rescope k)) =
      Place.Flawed S reflector (some joins) := by
    funext p e
    apply propext
    constructor
    · exact fun h => h.of_joined fun path _ => by simp [JoinSet.rescope, JoinSet.paths]
    · exact fun h => h.of_joined fun path _ => by simp [JoinSet.rescope, JoinSet.paths]
  have hfaults : FaultAt S reflector (some (joins.rescope k)) =
      FaultAt S reflector (some joins) := by
    funext m rule position e
    simp only [FaultAt, RowAccess.FaultAt, hflaws]
  simp only [FirstFault, Passes, hfaults]

/-- In another scope rules compile to the same filters, read from the renamed sources. -/
theorem compile_rescope (model : M) (joins : JoinSet M) (reflector : Reflector M)
    (rules : List Rule) :
    compile S model rules (some (joins.rescope k)) reflector =
      (compile S model rules (some joins) reflector).map (Restriction.rescope k) := by
  cases hcompile : compile S model rules (some joins) reflector with
  | ok restriction =>
      have hcarried : compile S model rules (some (joins.rescope k)) reflector = _ :=
        compileFrom_carried (Position.carries_rescope k) rfl hcompile
      rw [Restriction.mapSources_rescope] at hcarried
      exact hcarried
  | error fault =>
      have hfirst := compileFrom_eq_error_iff.1 hcompile
      exact compileFrom_eq_error_iff.2 ((firstFault_rescope k).2 hfirst)

end Rule

end RowAccess
