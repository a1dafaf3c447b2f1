import RowAccess.Accessible
/-!
# Workspaces

The settings and rules that requests share: a configuration, a default registry, a default
reflector, and further registries and reflectors by name. A part of the work can be done in
isolation, which leaves no trace in the configuration and the default registry.
-/

namespace RowAccess

/-- The shared state. A name can stand for a registry of its own or for the default one. -/
structure Workspace (M : Type) where
  config : Config := {}
  registry : Registry M := .empty
  reflector : Reflector M := {}
  registries : List (String × Option (Registry M)) := []
  reflectors : List (String × Reflector M) := []

namespace Workspace

variable {M : Type}

/-- Whether a name stands for the default registry. -/
def isDefaultRegistry (w : Workspace M) : Option String → Bool
  | none => true
  | some name =>
    match w.registries.lookup name with
    | some none => true
    | _ => false

/-- The registry of a name; one that was not used before is empty. -/
def registryAt (w : Workspace M) (name : Option String) : Registry M :=
  match name.bind fun name => w.registries.lookup name with
  | some (some registry) => registry
  | some none => w.registry
  | none => if name.isNone then w.registry else .empty

/-- The workspace with another registry under a name. -/
def setRegistry (w : Workspace M) (name : Option String) (registry : Registry M) : Workspace M :=
  match name, w.isDefaultRegistry name with
  | some name, false => { w with registries := (name, some registry) :: w.registries }
  | _, _ => { w with registry := registry }

/-- The workspace with a name that stands for the default registry. -/
def nameDefaultRegistry (w : Workspace M) (name : String) : Workspace M :=
  { w with registries := (name, none) :: w.registries }

/-- The workspace with a name that stands for a registry of its own, empty at first. -/
def nameNewRegistry (w : Workspace M) (name : String) : Workspace M :=
  { w with registries := (name, some .empty) :: w.registries }

/-- The reflector of a name; one that was not used before was told nothing. -/
def reflectorAt (w : Workspace M) : Option String → Reflector M
  | none => w.reflector
  | some name => (w.reflectors.lookup name).getD {}

/-- The workspace with another reflector under a name. -/
def setReflector (w : Workspace M) (name : Option String) (reflector : Reflector M) :
    Workspace M :=
  match name with
  | none => { w with reflector := reflector }
  | some name => { w with reflectors := (name, reflector) :: w.reflectors }

/-- A request for what an actor may reach. Where no reflector is given the default one answers. -/
def request (w : Workspace M) (registry : Option String) (reflector : Option (Reflector M))
    (actor : Actor) (action : Option Value) : Request M :=
  ⟨w.config, w.registryAt registry, reflector.getD w.reflector, actor, action⟩

/-- Overrides parts of the configuration. -/
def configure (w : Workspace M) (o : Overrides) : Except Fault (Workspace M) :=
  (w.config.merge o).map fun config => { w with config := config }

/-- The workspace that an isolated part of the work starts with. -/
def enter (w : Workspace M) (config : Option Config) : Workspace M :=
  { w with config := config.getD {}, registry := .empty }

variable [DecidableEq M]

/-- The workspace after an isolated part of the work: the configuration is put back, and the default
registry is made up again of the drawers it had before. -/
def leave (before after : Workspace M) : Workspace M :=
  { after with config := before.config, registry := .ofDrawers before.registry.drawers }

@[simp] theorem leave_config (before after : Workspace M) :
    (leave before after).config = before.config := rfl

@[simp] theorem leave_registry (before after : Workspace M) :
    (leave before after).registry = before.registry :=
  before.registry.ofDrawers_drawers

@[simp] theorem leave_registries (before after : Workspace M) :
    (leave before after).registries = after.registries := rfl

/-- Does a part of the work in isolation, however it ends. -/
def isolated {α : Type} (w : Workspace M) (config : Option Config)
    (body : Workspace M → α × Workspace M) : α × Workspace M :=
  let (result, after) := body (w.enter config)
  (result, w.leave after)

end Workspace

end RowAccess
