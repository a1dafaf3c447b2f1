import RowAccess.Proofs.RegistryHistory
import RowAccess.Workspace
/-!
# Work in isolation

Work on a workspace configures it, registers rules, clears registries, fails and recovers, and does
some of all this in isolation, to any depth. However a part of the work done in isolation ends, the
configuration and the answers of the default registry are afterwards what they were before it. What
it did to other registries stays.
-/

namespace RowAccess

/-- A registry that work refers to: the one that the innermost isolated part was handed, or one by
its name, where no name is the default one. -/
inductive Handle where
  | handed
  | named (name : Option String)

/-- The name a handle stands for where a registry was handed. -/
def Handle.name (handed : Option String) : Handle → Option String
  | .handed => handed
  | .named name => name

/-- A piece of work on a workspace. -/
inductive Work (M : Type) where
  /-- Overrides parts of the configuration. -/
  | configure (o : Overrides)
  /-- Registers something in a registry or clears it. -/
  | onRegistry (registry : Handle) (call : Registry.Call M)
  /-- Fails. -/
  | fail (fault : Fault)
  /-- Goes on after other work even if that failed. -/
  | attempt (body : List (Work M))
  /-- Does other work in isolation, with a configuration and a registry handed to it. -/
  | isolated (config : Option Config) (registry : Handle) (body : List (Work M))

namespace Work

variable {M : Type} [DecidableEq M]

mutual

/-- Does a piece of work: how it ends, and the workspace it leaves behind. -/
def run (handed : Option String) (w : Workspace M) : Work M → Except Fault Unit × Workspace M
  | .configure o =>
    match w.configure o with
    | .ok after => (.ok (), after)
    | .error fault => (.error fault, w)
  | .onRegistry registry call =>
    let name := registry.name handed
    match call.perform (w.registryAt name) with
    | .ok after => (.ok (), w.setRegistry name after)
    | .error fault => (.error fault, w)
  | .fail fault => (.error fault, w)
  | .attempt body => (.ok (), (runAll handed w body).2)
  | .isolated config registry body =>
    w.isolated config fun inner => runAll (registry.name handed) inner body
termination_by structural work => work

/-- Does pieces of work one after the other, up to the first that fails. -/
def runAll (handed : Option String) (w : Workspace M) :
    List (Work M) → Except Fault Unit × Workspace M
  | [] => (.ok (), w)
  | work :: rest =>
    match run handed w work with
    | (.ok (), after) => runAll handed after rest
    | (.error fault, after) => (.error fault, after)
termination_by structural works => works

end

end Work

/-- Two registries answer every question alike. -/
structure Registry.AnswersLike {M : Type} [DecidableEq M] (r r' : Registry M) : Prop where
  lookup : ∀ model action, r.lookup model action = r'.lookup model action
  hasRules : ∀ model action, r.hasRules model action = r'.hasRules model action
  modelsFor : ∀ action, r.modelsFor action = r'.modelsFor action

theorem Registry.AnswersLike.refl {M : Type} [DecidableEq M] (r : Registry M) : AnswersLike r r :=
  ⟨fun _ _ => rfl, fun _ _ => rfl, fun _ => rfl⟩

/-! ## What no work changes -/

namespace Workspace

variable {M : Type}

/-- What work never changes: which names stand for the default registry, and the reflectors. -/
structure Alike (w after : Workspace M) : Prop where
  names : ∀ name, after.isDefaultRegistry name = w.isDefaultRegistry name
  reflector : after.reflector = w.reflector
  reflectors : after.reflectors = w.reflectors

theorem Alike.refl (w : Workspace M) : Alike w w := ⟨fun _ => rfl, rfl, rfl⟩

theorem Alike.trans {w between after : Workspace M} (h : Alike w between)
    (h' : Alike between after) : Alike w after where
  names name := (h'.names name).trans (h.names name)
  reflector := h'.reflector.trans h.reflector
  reflectors := h'.reflectors.trans h.reflectors

theorem alike_configure {w after : Workspace M} {o : Overrides} (h : w.configure o = .ok after) :
    Alike w after := by
  obtain ⟨config, -, rfl⟩ := Success.map_eq_ok_iff.1 h
  exact ⟨fun _ => rfl, rfl, rfl⟩

theorem setRegistry_of_default {w : Workspace M} {name : Option String}
    (h : w.isDefaultRegistry name = true) (registry : Registry M) :
    w.setRegistry name registry = { w with registry := registry } := by
  cases name <;> simp [setRegistry, h]

theorem setRegistry_of_own {w : Workspace M} {name : String}
    (h : w.isDefaultRegistry (some name) = false) (registry : Registry M) :
    w.setRegistry (some name) registry =
      { w with registries := (name, some registry) :: w.registries } := by
  simp [setRegistry, h]

theorem alike_setRegistry (w : Workspace M) (name : Option String) (registry : Registry M) :
    Alike w (w.setRegistry name registry) := by
  cases hdefault : w.isDefaultRegistry name with
  | true =>
      rw [setRegistry_of_default hdefault]
      exact ⟨fun _ => rfl, rfl, rfl⟩
  | false =>
      cases name with
      | none => cases hdefault
      | some name =>
          rw [setRegistry_of_own hdefault]
          refine ⟨fun other => ?_, rfl, rfl⟩
          cases other with
          | none => rfl
          | some other =>
              by_cases hother : other = name
              · subst hother
                rw [hdefault]
                simp [isDefaultRegistry]
              · simp [isDefaultRegistry, List.lookup_cons, beq_eq_false_iff_ne.2 hother]

/-- A name that stands for the default registry has that one. -/
theorem registryAt_of_default {w : Workspace M} {name : Option String}
    (h : w.isDefaultRegistry name = true) : w.registryAt name = w.registry := by
  cases name with
  | none => rfl
  | some name =>
      rcases hfound : w.registries.lookup name with _ | _ | registry
      · simp [isDefaultRegistry, hfound] at h
      · simp [registryAt, hfound]
      · simp [isDefaultRegistry, hfound] at h

/-- A name that stands for a registry of its own has it whatever the default one is. -/
theorem registryAt_of_own {w after : Workspace M} {name : Option String}
    (h : w.isDefaultRegistry name = false) (hnames : after.registries = w.registries) :
    after.registryAt name = w.registryAt name := by
  cases name with
  | none => cases h
  | some name =>
      rcases hfound : w.registries.lookup name with _ | _ | registry
      · simp [registryAt, hfound, hnames]
      · simp [isDefaultRegistry, hfound] at h
      · simp [registryAt, hfound, hnames]

variable [DecidableEq M]

theorem alike_isolated {α : Type} {w : Workspace M} {config : Option Config}
    {body : Workspace M → α × Workspace M}
    (h : Alike (w.enter config) (body (w.enter config)).2) : Alike w (w.isolated config body).2 :=
  ⟨h.names, h.reflector, h.reflectors⟩

end Workspace

namespace Work

variable {M : Type} [DecidableEq M]

mutual

theorem alike_run (handed : Option String) (w : Workspace M) (work : Work M) :
    Workspace.Alike w (run handed w work).2 := by
  cases work with
  | configure o =>
      rw [run]
      split
      case h_1 hconfigure => exact Workspace.alike_configure hconfigure
      case h_2 => exact .refl w
  | onRegistry registry call =>
      rw [run]
      split
      case h_1 => exact Workspace.alike_setRegistry w _ _
      case h_2 => exact .refl w
  | fail fault => exact .refl w
  | attempt body => exact alike_runAll handed w body
  | isolated config registry body =>
      exact Workspace.alike_isolated (alike_runAll _ _ body)
termination_by structural work

theorem alike_runAll (handed : Option String) (w : Workspace M) (works : List (Work M)) :
    Workspace.Alike w (runAll handed w works).2 := by
  cases works with
  | nil => exact .refl w
  | cons work rest =>
      have hfirst := alike_run handed w work
      rw [runAll]
      split
      case h_1 after hrun =>
        rw [hrun] at hfirst
        exact hfirst.trans (alike_runAll handed after rest)
      case h_2 after hrun =>
        rw [hrun] at hfirst
        exact hfirst
termination_by structural works

end

/-- Work that is done in isolation starts with the given configuration, or the default one, and
with an empty default registry; the registry it is handed is that one or the one it was. It ends the
way its body does. After it the configuration is the one before it, and so are the answers of the
default registry, by whatever name; every other registry, the one handed to it among them, is as the
body left it. -/
theorem isolated_restores (handed : Option String) (w : Workspace M) (config : Option Config)
    (registry : Handle) (body : List (Work M)) :
    let start := w.enter config
    let ended := runAll (registry.name handed) start body
    let left := run handed w (.isolated config registry body)
    start.config = config.getD {} ∧
    (∀ name, start.registryAt name =
      if w.isDefaultRegistry name then .empty else w.registryAt name) ∧
    left.1 = ended.1 ∧
    left.2.config = w.config ∧
    (∀ name, w.isDefaultRegistry name = true →
      (left.2.registryAt name).AnswersLike (w.registryAt name)) ∧
    (∀ name, w.isDefaultRegistry name = false →
      left.2.registryAt name = ended.2.registryAt name) ∧
    Workspace.Alike w left.2 := by
  intro start ended left
  have halike : Workspace.Alike w left.2 := alike_run handed w _
  refine ⟨rfl, fun name => ?_, rfl, rfl, fun name hdefault => ?_, fun name hown => ?_, halike⟩
  · split
    case isTrue hdefault => exact Workspace.registryAt_of_default hdefault
    case isFalse hown =>
      exact Workspace.registryAt_of_own (Bool.eq_false_iff.2 hown) rfl
  · have hleft : left.2.isDefaultRegistry name = true := by rw [halike.names, hdefault]
    rw [Workspace.registryAt_of_default hleft, Workspace.registryAt_of_default hdefault]
    have hregistry : left.2.registry = w.registry := Workspace.leave_registry w ended.2
    rw [hregistry]
    exact .refl w.registry
  · have hended : ended.2.isDefaultRegistry name = false := by
      rw [(alike_runAll _ start body).names]
      exact hown
    exact Workspace.registryAt_of_own hended rfl

open Sample in
/-- Work that changes everything it can reach, partly in isolation, recovers once and fails. -/
def untidy : List (Work Entity) :=
  let read := fun model => Registry.Call.can .unconditional model (.text "read")
  [.configure { missingRules := .text "raise" },
    .attempt [.configure { distinct := .bool false, defaultAction := .text "" }],
    .onRegistry (.named none) (read .user),
    .isolated none .handed [.onRegistry .handed (read .tag), .onRegistry (.named none) .clear],
    .fail (.raised "boom")]

open Sample in
/-- A workspace with a rule for posts. -/
def tidy : Workspace Entity where
  config := { defaultAction := .text "update" }
  registry := .ofRegistrations
    [RuleFunction.unconditional.registration .post (.text "read") (.bool true)]

open Sample in
theorem untidy_restores :
    let left := run none tidy (.isolated none (.named (some "own")) untidy)
    left.1 = .error (.raised "boom") ∧
    left.2.config = tidy.config ∧
    left.2.registry.AnswersLike tidy.registry ∧
    (left.2.registryAt (some "own")).modelsFor (.text "read") = [.tag] := by
  obtain ⟨-, -, hends, hconfig, hdefault, hown, -⟩ :=
    isolated_restores none tidy none (.named (some "own")) untidy
  refine ⟨hends, hconfig, hdefault none rfl, ?_⟩
  rw [hown (some "own") rfl]
  rfl

end Work

end RowAccess
