import Mathlib.Data.List.Induction
import RowAccess.Proofs.Success
import RowAccess.Registry
import RowAccess.Sample.Schema
/-!
# What a registry answers after a history

Registrations for many models and actions arrive interleaved, and now and then the registry is
cleared. What it answers for a model and an action is then told by the registrations made for them
since it was last cleared, in their order, and by nothing else. The rules for an actor are what
these build for it one by one, up to the first that cannot.
-/

namespace RowAccess

/-- A registration is one for a model and an action. -/
def Registration.IsFor {M : Type} (r : Registration M) (model : M) (action : Value) : Prop :=
  r.model = model ∧ r.action.equals action = true

instance {M : Type} [DecidableEq M] (r : Registration M) (model : M) (action : Value) :
    Decidable (r.IsFor model action) :=
  inferInstanceAs (Decidable (_ ∧ _))

/-! ## Drawers -/

namespace Drawer

variable {M : Type} {model : M} {action : Value}

/-- Of two drawers for one key, each is for what the other is for. -/
theorem isFor_congr {d new : Drawer M} (model : M) (haction : action.text?.isSome = true)
    (h : d.IsFor new.model new.action) : d.IsFor model action ↔ new.IsFor model action := by
  unfold IsFor
  rw [h.1, Value.equals_congr_of_text? haction h.2]

theorem isFor_of_isFor {d new : Drawer M} (haction : action.text?.isSome = true)
    (hd : d.IsFor model action) (hnew : new.IsFor model action) :
    d.IsFor new.model new.action := by
  obtain ⟨text, htext⟩ := Option.isSome_iff_exists.1 haction
  have hdtext := (Value.equals_iff_of_text?_right htext).1 hd.2
  have hnewtext := (Value.equals_iff_of_text?_right htext).1 hnew.2
  exact ⟨hd.1.trans hnew.1.symm, (Value.equals_iff_of_text?_right hnewtext).2 hdtext⟩

variable [DecidableEq M]

/-- A drawer that is put among others is found by its model and action, and is passed over in the
search for others. -/
theorem find?_put (new : Drawer M) (drawers : List (Drawer M)) (model : M)
    (haction : action.text?.isSome = true) :
    ((new.put drawers).find? fun d => d.IsFor model action).map (·.registrations) =
      if new.IsFor model action then some new.registrations
      else (drawers.find? fun d => d.IsFor model action).map (·.registrations) := by
  induction drawers with
  | nil => by_cases hnew : new.IsFor model action <;> simp [put, hnew]
  | cons d rest ih =>
      rw [put]
      by_cases hsame : d.IsFor new.model new.action
      · have hd := isFor_congr model haction hsame
        have hreplaced : ({ d with registrations := new.registrations } : Drawer M).IsFor
            model action ↔ new.IsFor model action := hd
        by_cases hnew : new.IsFor model action <;> simp [hsame, hreplaced, hd, hnew]
      · by_cases hd : d.IsFor model action
        · have hnew : ¬ new.IsFor model action := fun hnew =>
            hsame (isFor_of_isFor haction hd hnew)
          simp [hsame, hd, hnew]
        · simpa [hsame, hd] using ih

end Drawer

namespace Registry

variable {M : Type} [DecidableEq M] {registry : Registry M} {model : M} {action : Value}

/-- No drawer of the registry is empty. -/
def Filled (registry : Registry M) : Prop := ∀ d ∈ registry.drawers, d.registrations ≠ []

theorem Filled.add (h : registry.Filled) (r : Registration M) : (registry.add r).Filled := by
  intro d hd
  rcases Drawer.mem_put hd with rfl | ⟨d', hd', rfl | ⟨-, rfl⟩⟩
  · simp
  · exact h d hd'
  · simp

/-- Two keys that are the same text have the same registrations. -/
theorem entriesFor_congr {r : Registration M} (haction : action.text?.isSome = true)
    (h : r.IsFor model action) :
    registry.entriesFor r.model r.action = registry.entriesFor model action := by
  obtain ⟨text, htext⟩ := Option.isSome_iff_exists.1 haction
  have hrtext := (Value.equals_iff_of_text?_right htext).1 h.2
  have hsame : ∀ d : Drawer M, d.IsFor r.model r.action ↔ d.IsFor model action := by
    intro d
    unfold Drawer.IsFor
    rw [h.1, Value.equals_iff_of_text?_right hrtext, Value.equals_iff_of_text?_right htext]
  simp only [entriesFor, hsame]

/-- A registration comes after all others for its model and action, and changes nothing for
others. -/
theorem entriesFor_add (r : Registration M) (haction : action.text?.isSome = true) :
    (registry.add r).entriesFor model action =
      registry.entriesFor model action ++ [r].filter fun r => r.IsFor model action := by
  have hput := Drawer.find?_put
    ⟨r.model, r.action, registry.entriesFor r.model r.action ++ [r]⟩ registry.drawers model haction
  rw [entriesFor, add, put, hput]
  by_cases hr : r.IsFor model action
  · have hnew : Drawer.IsFor ⟨r.model, r.action, registry.entriesFor r.model r.action ++ [r]⟩
      model action := hr
    rw [if_pos hnew, Option.getD_some, entriesFor_congr haction hr, List.filter_singleton]
    simp [hr]
  · have hnew : ¬ Drawer.IsFor ⟨r.model, r.action, registry.entriesFor r.model r.action ++ [r]⟩
      model action := hr
    rw [if_neg hnew, List.filter_singleton]
    simp [hr, entriesFor]

theorem any_isFor_eq (h : registry.Filled) :
    (registry.drawers.any fun d => d.IsFor model action) =
      decide (registry.entriesFor model action ≠ []) := by
  rw [← List.isSome_find?, entriesFor]
  cases hfind : registry.drawers.find? fun d => d.IsFor model action with
  | none => simp
  | some d => simpa using h d (List.mem_of_find?_eq_some hfind)

theorem mem_modelsFor_iff (h : registry.Filled) :
    model ∈ registry.modelsFor action ↔ registry.entriesFor model action ≠ [] := by
  have hany : (registry.drawers.any fun d => d.IsFor model action) = true ↔
      registry.entriesFor model action ≠ [] := by
    rw [any_isFor_eq h, decide_eq_true_iff]
  rw [← hany, modelsFor, List.mem_eraseDups, List.mem_map, List.any_eq_true]
  constructor
  · rintro ⟨d, hd, hmodel⟩
    obtain ⟨hmem, haction⟩ := List.mem_filter.1 hd
    exact ⟨d, hmem, decide_eq_true ⟨hmodel, haction⟩⟩
  · rintro ⟨d, hmem, hfor⟩
    obtain ⟨hmodel, haction⟩ := of_decide_eq_true hfor
    exact ⟨d, List.mem_filter.2 ⟨hmem, haction⟩, hmodel⟩

theorem nodup_eraseDups (models : List M) : models.eraseDups.Nodup := by
  induction hlength : models.length using Nat.strongRecOn generalizing models with
  | _ n ih =>
      cases models with
      | nil => simp
      | cons m rest =>
          have hshorter : (rest.filter fun b => !b == m).length < n := by
            rw [← hlength, List.length_cons]
            exact Nat.lt_succ_of_le (List.length_filter_le _ _)
          rw [List.eraseDups_cons, List.nodup_cons, List.mem_eraseDups]
          exact ⟨by simp, ih _ hshorter _ rfl⟩

theorem register_of_hashable {r : Registration M} (h : r.action.unhashable? = none) :
    registry.register r = .ok (registry.add r) := by
  simp [register, checkAction, h, bind, Except.bind]

theorem register_of_unhashable {r : Registration M} {typeName : String}
    (h : r.action.unhashable? = some typeName) :
    registry.register r = .error (.unhashable typeName) := by
  simp [register, checkAction, h, bind, Except.bind]

/-! ## Histories -/

/-- What is done to a registry: registering in full, registering a rule function under its own name,
to allow, to deny or as told, and clearing. -/
inductive Call (M : Type) where
  | register (r : Registration M)
  | rule (f : RuleFunction) (model : M) (action grants : Value)
  | can (f : RuleFunction) (model : M) (action : Value)
  | cannot (f : RuleFunction) (model : M) (action : Value)
  | clear

namespace Call

/-- What a call is to register. -/
def registration? : Call M → Option (Registration M)
  | .register r => some r
  | .rule f model action grants => some (f.registration model action grants)
  | .can f model action => some (f.registration model action (.bool true))
  | .cannot f model action => some (f.registration model action (.bool false))
  | .clear => none

/-- What a call registers if it succeeds. -/
def made? (call : Call M) : Option (Registration M) :=
  call.registration?.filter fun r => r.action.unhashable?.isNone

/-- The registry after a call. -/
def perform (registry : Registry M) (call : Call M) : Except Fault (Registry M) :=
  match call.registration? with
  | some r => registry.register r
  | none => .ok .empty

/-- The registry that a call leaves behind: a failing call leaves it as it was. -/
def after (registry : Registry M) (call : Call M) : Registry M :=
  match call.perform registry with
  | .ok registry => registry
  | .error _ => registry

theorem after_of_registration? {call : Call M} {r : Registration M}
    (h : call.registration? = some r) :
    call.after registry = call.made?.elim registry registry.add := by
  cases hkey : r.action.unhashable? with
  | none =>
      simp [after, perform, made?, h, register_of_hashable hkey, Option.filter, hkey]
  | some typeName =>
      simp [after, perform, made?, h, register_of_unhashable hkey, Option.filter, hkey]

theorem after_of_cleared {call : Call M} (h : call.registration? = none) :
    call.after registry = .empty := by
  rw [after, perform, h]

end Call

/-- The registry after a history that starts without registrations. -/
def afterAll (history : List (Call M)) : Registry M := history.foldl Call.after .empty

/-- The registrations made in a history since the registry was last cleared. -/
def sinceClear (history : List (Call M)) : List (Registration M) :=
  (history.reverse.takeWhile fun call => call.registration?.isSome).reverse.filterMap Call.made?

/-- The registrations for a model and an action made in a history since the registry was last
cleared. -/
def madeFor (history : List (Call M)) (model : M) (action : Value) : List (Registration M) :=
  (sinceClear history).filter fun r => r.IsFor model action

omit [DecidableEq M] in
theorem sinceClear_snoc (history : List (Call M)) (call : Call M) :
    sinceClear (history ++ [call]) =
      if call.registration?.isSome then sinceClear history ++ call.made?.toList else [] := by
  unfold sinceClear
  rw [List.reverse_append, List.reverse_singleton, List.singleton_append, List.takeWhile_cons]
  cases hcall : call.registration?.isSome
  · rfl
  · simp only [↓reduceIte, List.reverse_cons, List.filterMap_append]
    cases hmade : call.made? <;> simp [hmade]

theorem afterAll_snoc (history : List (Call M)) (call : Call M) :
    afterAll (history ++ [call]) = call.after (afterAll history) := List.foldl_append

/-- Along any history no drawer is ever empty. -/
theorem filled_afterAll (history : List (Call M)) : (afterAll history).Filled := by
  induction history using List.reverseRecOn with
  | nil => exact fun d hd => by cases hd
  | append_singleton history call ih =>
      rw [afterAll_snoc]
      cases hcall : call.registration? with
      | none =>
          rw [Call.after_of_cleared hcall]
          exact fun d hd => by cases hd
      | some r =>
          rw [Call.after_of_registration? hcall]
          cases call.made? with
          | none => exact ih
          | some r => exact ih.add r

/-- After any history, what is stored for a model and an action is what was registered for them
since the registry was last cleared, in order. -/
theorem entriesFor_afterAll (history : List (Call M)) (model : M)
    (haction : action.text?.isSome = true) :
    (afterAll history).entriesFor model action = madeFor history model action := by
  induction history using List.reverseRecOn with
  | nil => rfl
  | append_singleton history call ih =>
      rw [afterAll_snoc, madeFor, sinceClear_snoc]
      cases hcall : call.registration? with
      | none =>
          rw [Call.after_of_cleared hcall]
          rfl
      | some r =>
          rw [Call.after_of_registration? hcall, Option.isSome_some, if_pos rfl,
            List.filter_append, ← madeFor, ← ih]
          cases call.made? with
          | none => simp
          | some r => exact entriesFor_add r haction

/-! ## Evaluation -/

end Registry

namespace Registration

variable {M : Type}

/-- The rule a registration comes to for an actor: what it grants, under its name, with the
conditions that its function returns, which have to be a mapping. -/
def Yields (r : Registration M) (actor : Actor) (rule : Rule) : Prop :=
  ∃ conditions, r.build actor = .ok conditions ∧ conditions.entries?.isSome = true ∧
    rule = ⟨r.grants, conditions, r.name⟩

/-- What a registration that comes to no rule complains of: its function fails, or it returns what
is not a mapping. -/
def Rejects (r : Registration M) (S : Schema M) (action : Value) (actor : Actor) (fault : Fault) :
    Prop :=
  r.build actor = .error fault ∨
    ∃ conditions, r.build actor = .ok conditions ∧ conditions.entries?.isSome = false ∧
      fault = .malformedTree .null conditions (.returned r.name (S.model r.model).name action)

variable {S : Schema M} {r : Registration M} {action : Value} {actor : Actor}

theorem checkedRule_eq_ok_iff {rule : Rule} :
    Registry.checkedRule S actor r action = .ok rule ↔ r.Yields actor rule := by
  unfold Registry.checkedRule Registration.rule
  rw [Success.bind_eq_ok_iff]
  constructor
  · rintro ⟨built, hbuilt, h⟩
    obtain ⟨conditions, hconditions, rfl⟩ := Success.map_eq_ok_iff.1 hbuilt
    split at h
    case isTrue hmapping => exact ⟨conditions, hconditions, hmapping, (Except.ok.inj h).symm⟩
    case isFalse => cases h
  · rintro ⟨conditions, hconditions, hmapping, rfl⟩
    exact ⟨_, Success.map_eq_ok_iff.2 ⟨conditions, hconditions, rfl⟩, if_pos hmapping⟩

theorem checkedRule_eq_error_iff {fault : Fault} :
    Registry.checkedRule S actor r action = .error fault ↔ r.Rejects S action actor fault := by
  unfold Registry.checkedRule Registration.rule Rejects
  rw [Success.bind_eq_error_iff, Success.map_eq_error_iff]
  refine or_congr_right ?_
  constructor
  · rintro ⟨built, hbuilt, h⟩
    obtain ⟨conditions, hconditions, rfl⟩ := Success.map_eq_ok_iff.1 hbuilt
    split at h
    case isTrue => cases h
    case isFalse hother =>
      exact ⟨conditions, hconditions, Bool.eq_false_iff.2 hother, (Except.error.inj h).symm⟩
  · rintro ⟨conditions, hconditions, hother, rfl⟩
    exact ⟨_, Success.map_eq_ok_iff.2 ⟨conditions, hconditions, rfl⟩,
      if_neg (Bool.eq_false_iff.1 hother)⟩

end Registration

namespace Registry

variable {M : Type} [DecidableEq M]

/-- What a registry answers after a history of registrations and clears: the registrations made for
a model and an action since it was last cleared, in order; that there are any; the models that have
any; and the rules these registrations come to for an actor one by one, or the complaint of the
first that comes to none. An action is a text. -/
theorem history_determines_answers (S : Schema M) (history : List (Call M)) (model : M)
    (action : Value) (haction : action.text?.isSome = true) (actor : Actor) :
    (afterAll history).lookup model action = .ok (madeFor history model action) ∧
    (afterAll history).hasRules model action =
      .ok (decide (madeFor history model action ≠ [])) ∧
    ((afterAll history).modelsFor action).Nodup ∧
    (∀ m, m ∈ (afterAll history).modelsFor action ↔ madeFor history m action ≠ []) ∧
    (∀ rules, (afterAll history).evaluate S model action actor = .ok rules ↔
      List.Forall₂ (fun r rule => r.Yields actor rule) (madeFor history model action) rules) ∧
    ∀ fault, (afterAll history).evaluate S model action actor = .error fault ↔
      ∃ before r later, madeFor history model action = before ++ r :: later ∧
        (∀ earlier ∈ before, ∃ rule, earlier.Yields actor rule) ∧
        r.Rejects S action actor fault := by
  obtain ⟨text, htext⟩ := Option.isSome_iff_exists.1 haction
  have hkey : checkAction action = .ok () := by
    rw [checkAction, Value.unhashable?_of_text? htext]
  have hentries := fun m => entriesFor_afterAll history m haction
  have hfilled := filled_afterAll history
  have hlookup : (afterAll history).lookup model action = .ok (madeFor history model action) := by
    rw [lookup, Success.bind_ok hkey, hentries]
  refine ⟨hlookup, ?_, nodup_eraseDups _, fun m => ?_, fun rules => ?_, fun fault => ?_⟩
  · rw [hasRules, Success.bind_ok hkey, any_isFor_eq hfilled, hentries]
  · rw [mem_modelsFor_iff hfilled, hentries]
  · rw [evaluate, Success.bind_ok hlookup, Success.mapM_eq_ok_iff]
    simp only [Registration.checkedRule_eq_ok_iff]
  · rw [evaluate, Success.bind_ok hlookup, Success.mapM_eq_error_iff]
    simp only [Registration.checkedRule_eq_ok_iff, Registration.checkedRule_eq_error_iff]

open Sample in
/-- Two rules for posts, between which one for users is registered, after the registry was cleared
of others. -/
def newsroom : List (Call Entity) :=
  let published : RuleFunction := ⟨"published", "", fun _ => .ok (.plain [(.text "id", .int 1)])⟩
  let locked : RuleFunction := ⟨"locked", "", fun _ => .ok (.plain [(.text "locked", .bool true)])⟩
  [.can .unconditional .post (.text "read"), .can .unconditional .tag (.text "read"), .clear,
    .can published .post (.text "read"), .can .unconditional .user (.text "read"),
    .cannot locked .post (.text "read")]

open Sample in
theorem newsroom_answers :
    (∃ entries, (afterAll newsroom).lookup .post (.text "read") = .ok entries ∧
      entries.map (·.name) = ["published", "locked"]) ∧
    (afterAll newsroom).hasRules .post (.text "read") = .ok true ∧
    Entity.post ∈ (afterAll newsroom).modelsFor (.text "read") ∧
    Entity.tag ∉ (afterAll newsroom).modelsFor (.text "read") ∧
    (afterAll newsroom).evaluate schema .post (.text "read") .nobody =
      .ok [⟨.bool true, .plain [(.text "id", .int 1)], "published"⟩,
        ⟨.bool false, .plain [(.text "locked", .bool true)], "locked"⟩] := by
  obtain ⟨hlookup, hrules, -, hmodels, hok, -⟩ :=
    history_determines_answers schema newsroom .post (.text "read") rfl .nobody
  refine ⟨⟨_, hlookup, by decide⟩, by rw [hrules]; rfl, (hmodels _).2 (by decide),
    fun htag => (hmodels _).1 htag (by decide), (hok _).2 ?_⟩
  exact .cons ⟨_, rfl, rfl, rfl⟩ (.cons ⟨_, rfl, rfl, rfl⟩ .nil)

end Registry

end RowAccess
