import RowAccess.Actor
import RowAccess.Rule
import RowAccess.Schema
import RowAccess.Value.Equality
/-!
# Registries

Rule functions registered for a model and an action. Rules are built for an actor in the order of
their registration, which is the order they are folded in.
-/

namespace RowAccess

/-- A registered rule function: what it builds for an actor are the conditions of a rule. -/
structure Registration (M : Type) where
  model : M
  action : Value
  build : Actor → Except Fault Value
  grants : Value
  name : String
  description : String

/-- The rule a registration builds for an actor. -/
def Registration.rule {M : Type} (r : Registration M) (actor : Actor) : Except Fault Rule :=
  (r.build actor).map fun conditions => ⟨r.grants, conditions, r.name⟩

/-- A rule function with the name and the description it is registered under. -/
structure RuleFunction where
  name : String
  description : String
  build : Actor → Except Fault Value

/-- The rule function without conditions, with which everything is allowed or denied. -/
def RuleFunction.unconditional : RuleFunction where
  name := "unconditional"
  description :=
    "Rule function with no conditions, for allow-all or deny-all rules.\n\n    Example::\n\n" ++
    "        registry.register(Post, \"read\", unconditional, name=\"all\", description=\"\")\n    "
  build := fun _ => .ok (.plain [])

/-- The registration of a rule function under its own name. -/
def RuleFunction.registration {M : Type} (f : RuleFunction) (model : M) (action grants : Value) :
    Registration M :=
  ⟨model, action, f.build, grants, f.name, f.description⟩

/-- The registrations for one model and one action, in order. -/
structure Drawer (M : Type) where
  model : M
  action : Value
  registrations : List (Registration M)

namespace Drawer

variable {M : Type}

/-- A drawer is the one for a model and an action. -/
def IsFor (d : Drawer M) (model : M) (action : Value) : Prop :=
  d.model = model ∧ d.action.equals action = true

variable [DecidableEq M]

instance (d : Drawer M) (model : M) (action : Value) : Decidable (d.IsFor model action) :=
  inferInstanceAs (Decidable (_ ∧ _))

/-- Puts a drawer among others. Where there is one for its model and action, that one takes over the
registrations; otherwise the drawer comes after all others. -/
def put (new : Drawer M) : List (Drawer M) → List (Drawer M)
  | [] => [new]
  | d :: rest =>
    if d.IsFor new.model new.action then { d with registrations := new.registrations } :: rest
    else d :: put new rest

theorem mem_put {new e : Drawer M} {drawers : List (Drawer M)} (h : e ∈ new.put drawers) :
    e = new ∨ ∃ d ∈ drawers,
      e = d ∨ d.IsFor new.model new.action ∧ e = { d with registrations := new.registrations } := by
  induction drawers with
  | nil => exact .inl (List.mem_singleton.1 h)
  | cons d rest ih =>
      rw [put] at h
      split at h
      · rename_i hfor
        rcases List.mem_cons.1 h with rfl | h
        · exact .inr ⟨d, by simp, .inr ⟨hfor, rfl⟩⟩
        · exact .inr ⟨e, by simp [h], .inl rfl⟩
      · rcases List.mem_cons.1 h with rfl | h
        · exact .inr ⟨e, by simp, .inl rfl⟩
        · rcases ih h with hnew | ⟨d', hd', he⟩
          · exact .inl hnew
          · exact .inr ⟨d', by simp [hd'], he⟩

theorem put_of_forall_not {new : Drawer M} {drawers : List (Drawer M)}
    (h : ∀ d ∈ drawers, ¬ d.IsFor new.model new.action) : new.put drawers = drawers ++ [new] := by
  induction drawers with
  | nil => rfl
  | cons d rest ih =>
      rw [List.forall_mem_cons] at h
      rw [put, if_neg h.1, ih h.2, List.cons_append]

/-- No drawer is for the model and action of a later one. -/
def Distinct {M : Type} (drawers : List (Drawer M)) : Prop :=
  drawers.Pairwise fun d e => ¬ d.IsFor e.model e.action

theorem Distinct.put {drawers : List (Drawer M)} (h : Distinct drawers) (new : Drawer M) :
    Distinct (new.put drawers) := by
  induction drawers with
  | nil => exact List.pairwise_singleton _ _
  | cons d rest ih =>
      obtain ⟨hfirst, hrest⟩ := List.pairwise_cons.1 h
      rw [Drawer.put]
      split
      · exact List.pairwise_cons.2 ⟨hfirst, hrest⟩
      · rename_i hother
        refine List.pairwise_cons.2 ⟨fun e he => ?_, ih hrest⟩
        rcases mem_put he with rfl | ⟨e', he', rfl | ⟨-, rfl⟩⟩
        · exact hother
        · exact hfirst e he'
        · exact hfirst e' he'

end Drawer

/-- The registrations made so far, in one drawer for each model and action. -/
@[ext]
structure Registry (M : Type) where
  drawers : List (Drawer M) := []
  distinct : Drawer.Distinct drawers := by exact List.Pairwise.nil

namespace Registry

variable {M : Type}

/-- A registry without registrations. -/
def empty : Registry M := {}

variable [DecidableEq M]

/-- The registry with a drawer put among its own. -/
def put (registry : Registry M) (drawer : Drawer M) : Registry M :=
  ⟨drawer.put registry.drawers, registry.distinct.put drawer⟩

/-- A registry made of drawers that were taken from one. -/
def ofDrawers (drawers : List (Drawer M)) : Registry M := drawers.foldl put empty

theorem drawers_foldl_put (registry : Registry M) {drawers : List (Drawer M)}
    (h : Drawer.Distinct (registry.drawers ++ drawers)) :
    (drawers.foldl put registry).drawers = registry.drawers ++ drawers := by
  induction drawers generalizing registry with
  | nil => simp
  | cons d rest ih =>
      have hnew : ∀ e ∈ registry.drawers, ¬ e.IsFor d.model d.action :=
        fun e he => (List.pairwise_append.1 h).2.2 e he d (by simp)
      have hput : (registry.put d).drawers = registry.drawers ++ [d] :=
        Drawer.put_of_forall_not hnew
      rw [List.foldl_cons, ih, hput, List.append_assoc, List.singleton_append]
      rwa [hput, List.append_assoc, List.singleton_append]

/-- The drawers taken from a registry make up the same registry again. -/
theorem ofDrawers_drawers (registry : Registry M) : ofDrawers registry.drawers = registry :=
  Registry.ext (drawers_foldl_put empty registry.distinct)

/-- The registrations for a model and an action, in order. -/
def entriesFor (registry : Registry M) (model : M) (action : Value) : List (Registration M) :=
  ((registry.drawers.find? fun d => d.IsFor model action).map (·.registrations)).getD []

@[simp] theorem entriesFor_empty (model : M) (action : Value) :
    (empty : Registry M).entriesFor model action = [] := rfl

/-- Fails if an action cannot be looked up. -/
def checkAction (action : Value) : Except Fault Unit :=
  match action.unhashable? with
  | some typeName => .error (.unhashable typeName)
  | none => .ok ()

/-- The registry with a registration after all others for its model and action. -/
def add (registry : Registry M) (r : Registration M) : Registry M :=
  registry.put ⟨r.model, r.action, registry.entriesFor r.model r.action ++ [r]⟩

/-- The registry of the given registrations. -/
def ofRegistrations (registrations : List (Registration M)) : Registry M :=
  registrations.foldl add empty

/-- Adds a registration. -/
def register (registry : Registry M) (r : Registration M) : Except Fault (Registry M) := do
  checkAction r.action
  .ok (registry.add r)

/-- The registrations for a model and an action. -/
def lookup (registry : Registry M) (model : M) (action : Value) :
    Except Fault (List (Registration M)) := do
  checkAction action
  .ok (registry.entriesFor model action)

/-- Whether anything is registered for a model and an action. -/
def hasRules (registry : Registry M) (model : M) (action : Value) : Except Fault Bool := do
  checkAction action
  .ok (registry.drawers.any fun d => d.IsFor model action)

/-- The models that have a registration for an action, each once. -/
def modelsFor (registry : Registry M) (action : Value) : List M :=
  ((registry.drawers.filter fun d => d.action.equals action).map (·.model)).eraseDups

/-- The rule of a registration for an actor, which has to have a mapping for its conditions. -/
def checkedRule (S : Schema M) (actor : Actor) (r : Registration M) (action : Value) :
    Except Fault Rule := do
  let rule ← r.rule actor
  if rule.conditions.entries?.isSome then .ok rule
  else .error (.malformedTree .null rule.conditions
    (.returned r.name (S.model r.model).name action))

/-- The rules for a model and an action as they apply to an actor. -/
def evaluate (S : Schema M) (registry : Registry M) (model : M) (action : Value)
    (actor : Actor) : Except Fault (List Rule) := do
  let registrations ← registry.lookup model action
  registrations.mapM fun r => checkedRule S actor r action

end Registry

end RowAccess
