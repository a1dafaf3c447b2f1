import RowAccess.Proofs.Success
import RowAccess.Sample.Schema
import RowAccess.Workspace
/-!
# Configurations after a history

A workspace is configured again and again, each time in some of the settings and now and then with
values that are refused. Every setting then has the last value that was given for it in a call that
was not refused; a refused call has no effect at all, in its valid parts neither. Overriding a
configuration twice is overriding it once, by both together.
-/

namespace RowAccess

/-! ## Settings -/

/-- The settings of a configuration. -/
inductive Setting where
  | missingRules
  | defaultAction
  | recordDecisions
  | distinct
deriving DecidableEq, Repr

theorem Setting.forall_iff {P : Setting → Prop} :
    (∀ s, P s) ↔ P .missingRules ∧ P .defaultAction ∧ P .recordDecisions ∧ P .distinct := by
  constructor
  · intro h
    exact ⟨h _, h _, h _, h _⟩
  · rintro ⟨hmissing, haction, hrecord, hdistinct⟩ s
    cases s <;> assumption

namespace Overrides

/-- The new value for a setting. -/
def value (o : Overrides) : Setting → Value
  | .missingRules => o.missingRules
  | .defaultAction => o.defaultAction
  | .recordDecisions => o.recordDecisions
  | .distinct => o.distinct

/-- New values, with other new values taking precedence. -/
def overriddenBy (a b : Overrides) : Overrides where
  missingRules := Config.orElse b.missingRules a.missingRules
  defaultAction := Config.orElse b.defaultAction a.defaultAction
  recordDecisions := Config.orElse b.recordDecisions a.recordDecisions
  distinct := Config.orElse b.distinct a.distinct

/-- A value can be given for a setting: a known behaviour for missing rules, and a default action
that counts as true. The other two settings take any value. -/
def Accepts : Setting → Value → Prop
  | .missingRules, v => v.text? = some "deny" ∨ v.text? = some "raise"
  | .defaultAction, v => v.truthy = true
  | .recordDecisions, _ | .distinct, _ => True

/-- Every value that is given can be given. -/
def Valid (o : Overrides) : Prop := ∀ s, o.value s ≠ .null → Accepts s (o.value s)

end Overrides

namespace Config

/-- The value of a setting. -/
def value (c : Config) : Setting → Value
  | .missingRules => .text c.missingRules.word
  | .defaultAction => c.defaultAction
  | .recordDecisions => c.recordDecisions
  | .distinct => c.distinct

/-- A setting has a value. The behaviour for missing rules is known by its word, whatever kind of
text that is. -/
def Has (c : Config) : Setting → Value → Prop
  | .missingRules, v => v.text? = some c.missingRules.word
  | s, v => v = c.value s

end Config

namespace MissingRules

theorem word_eq (m : MissingRules) : m.word = "deny" ∨ m.word = "raise" := by
  cases m <;> simp [word]

theorem ofValue?_eq_ok_iff {v : Value} {m : MissingRules} :
    ofValue? v = .ok m ↔ v.text? = some m.word := by
  unfold ofValue?
  cases htext : v.text? with
  | none => cases v.unhashable? <;> simp
  | some text =>
      rw [Value.unhashable?_of_text? htext]
      split <;> cases m <;> simp_all [word]

end MissingRules

namespace Config

theorem has_value (c : Config) (s : Setting) : c.Has s (c.value s) := by
  cases s <;> simp [Has, value, Value.text?]

theorem ofValues_eq_ok_iff {missingRules defaultAction recordDecisions distinct : Value}
    {c : Config} :
    ofValues missingRules defaultAction recordDecisions distinct = .ok c ↔
      c.Has .missingRules missingRules ∧ c.Has .defaultAction defaultAction ∧
        c.Has .recordDecisions recordDecisions ∧ c.Has .distinct distinct := by
  unfold ofValues
  rw [Success.bind_eq_ok_iff]
  constructor
  · rintro ⟨missing, hmissing, h⟩
    split at h
    case isTrue htruthy =>
      cases h
      exact ⟨MissingRules.ofValue?_eq_ok_iff.1 hmissing, rfl, rfl, rfl⟩
    case isFalse => cases h
  · rintro ⟨hmissing, rfl, rfl, rfl⟩
    refine ⟨c.missingRules, MissingRules.ofValue?_eq_ok_iff.2 hmissing, ?_⟩
    rw [dif_pos (show (c.value .defaultAction).truthy = true from c.defaultAction_truthy)]
    rfl

/-- Overriding succeeds with the configuration that has the new values, where there are any, and
the old ones elsewhere, if there is one. -/
theorem merge_eq_ok_iff {c d : Config} {o : Overrides} :
    c.merge o = .ok d ↔ ∀ s, d.Has s (orElse (o.value s) (c.value s)) := by
  rw [Setting.forall_iff, merge, ofValues_eq_ok_iff]
  rfl

theorem orElse_null (v : Value) : orElse .null v = v := rfl

theorem orElse_of_ne_null {v other : Value} (h : v ≠ .null) : orElse v other = v := by
  cases v <;> first | rfl | exact absurd rfl h

theorem orElse_assoc (u v w : Value) : orElse u (orElse v w) = orElse (orElse u v) w := by
  by_cases hu : u = .null
  · rw [hu, orElse_null, orElse_null]
  · rw [orElse_of_ne_null hu, orElse_of_ne_null hu, orElse_of_ne_null hu]

theorem Has.accepts {c : Config} {s : Setting} {v : Value} (h : c.Has s v) :
    Overrides.Accepts s v := by
  cases s with
  | missingRules =>
      have htext : v.text? = some c.missingRules.word := h
      exact c.missingRules.word_eq.imp (fun hword => htext.trans (congrArg some hword))
        fun hword => htext.trans (congrArg some hword)
  | defaultAction =>
      obtain rfl : v = c.defaultAction := h
      exact c.defaultAction_truthy
  | recordDecisions => trivial
  | distinct => trivial

/-- Values that can be given make up a configuration. -/
theorem exists_has {values : Setting → Value} (h : ∀ s, Overrides.Accepts s (values s)) :
    ∃ c : Config, ∀ s, c.Has s (values s) := by
  have haction : (values .defaultAction).truthy = true := h .defaultAction
  simp only [Setting.forall_iff]
  rcases h .missingRules with hmissing | hmissing
  · exact ⟨⟨.deny, _, _, _, haction⟩, hmissing, rfl, rfl, rfl⟩
  · exact ⟨⟨.raise, _, _, _, haction⟩, hmissing, rfl, rfl, rfl⟩

/-- A setting that is not overridden keeps the value it had, under its own spelling. -/
theorem Has.merge {c d : Config} {o : Overrides} {s : Setting} {v : Value} (h : c.Has s v)
    (hmerge : c.merge o = .ok d) : d.Has s (orElse (o.value s) v) := by
  have hs := merge_eq_ok_iff.1 hmerge s
  by_cases hgiven : o.value s = .null
  · rw [hgiven, orElse_null] at hs ⊢
    cases s with
    | missingRules =>
        have hword : some c.missingRules.word = some d.missingRules.word := hs
        have htext : v.text? = some c.missingRules.word := h
        exact htext.trans hword
    | defaultAction => exact Eq.trans h hs
    | recordDecisions => exact Eq.trans h hs
    | distinct => exact Eq.trans h hs
  · rw [orElse_of_ne_null hgiven] at hs ⊢
    exact hs

/-- Overriding succeeds exactly if everything that is given can be given. -/
theorem merge_ok_iff_valid {c : Config} {o : Overrides} : (∃ d, c.merge o = .ok d) ↔ o.Valid := by
  simp only [merge_eq_ok_iff]
  constructor
  · rintro ⟨d, hd⟩ s hgiven
    have hs := (hd s).accepts
    rwa [orElse_of_ne_null hgiven] at hs
  · intro hvalid
    refine exists_has fun s => ?_
    by_cases hgiven : o.value s = .null
    · rw [hgiven, orElse_null]
      exact (c.has_value s).accepts
    · rw [orElse_of_ne_null hgiven]
      exact hvalid s hgiven

/-- Overriding a configuration twice is overriding it by both together. -/
theorem merge_merge {c d : Config} {a b : Overrides} (ha : c.merge a = .ok d) :
    d.merge b = c.merge (a.overriddenBy b) := by
  obtain ⟨hmissing, haction, hrecord, hdistinct⟩ := Setting.forall_iff.1 (merge_eq_ok_iff.1 ha)
  have hmissing : MissingRules.ofValue? (orElse a.missingRules (.text c.missingRules.word)) =
      .ok d.missingRules := MissingRules.ofValue?_eq_ok_iff.2 hmissing
  have haction : orElse a.defaultAction c.defaultAction = d.defaultAction := haction
  have hrecord : orElse a.recordDecisions c.recordDecisions = d.recordDecisions := hrecord
  have hdistinct : orElse a.distinct c.distinct = d.distinct := hdistinct
  have hword : MissingRules.ofValue? (orElse b.missingRules
        (orElse a.missingRules (.text c.missingRules.word))) =
      MissingRules.ofValue? (orElse b.missingRules (.text d.missingRules.word)) := by
    by_cases hgiven : b.missingRules = .null
    · rw [hgiven, orElse_null, orElse_null, hmissing, missingRules_ofValue?_word]
    · rw [orElse_of_ne_null hgiven, orElse_of_ne_null hgiven]
  simp only [merge, ofValues, Overrides.overriddenBy, ← orElse_assoc, haction, hrecord, hdistinct,
    hword]

end Config

/-! ## Histories -/

namespace Setting

/-- The value of a setting that was never given one. -/
def initial : Setting → Value
  | .missingRules => .text "deny"
  | .defaultAction => .text "read"
  | .recordDecisions => .bool false
  | .distinct => .bool true

/-- The last value that some overrides give for a setting, or else the initial one. -/
def lastGiven (s : Setting) (given : List Overrides) : Value :=
  (((given.map (·.value s)).filter fun v => !v.isNull).getLast?).getD s.initial

theorem lastGiven_snoc (s : Setting) (given : List Overrides) (o : Overrides) :
    s.lastGiven (given ++ [o]) = Config.orElse (o.value s) (s.lastGiven given) := by
  unfold lastGiven Config.orElse
  rw [List.map_append, List.filter_append, List.map_singleton, List.filter_singleton]
  cases (o.value s).isNull <;> simp

end Setting

namespace Workspace

variable {M : Type}

/-- The workspace that a call leaves behind: a refused call leaves it as it was. -/
def reconfigure (w : Workspace M) (o : Overrides) : Workspace M :=
  match w.configure o with
  | .ok after => after
  | .error _ => w

/-- The workspace after a history of calls. -/
def reconfigureAll (w : Workspace M) (history : List Overrides) : Workspace M :=
  history.foldl reconfigure w

/-- The calls of a history that were not refused. -/
def accepted (w : Workspace M) : List Overrides → List Overrides
  | [] => []
  | o :: rest =>
    match w.configure o with
    | .ok after => o :: accepted after rest
    | .error _ => accepted w rest

theorem configure_error_iff_not_valid {w : Workspace M} {o : Overrides} :
    (∃ fault, w.configure o = .error fault) ↔ ¬ o.Valid := by
  rw [← Config.merge_ok_iff_valid (c := w.config), configure]
  cases w.config.merge o <;> simp [Except.map]

theorem reconfigure_of_not_valid {w : Workspace M} {o : Overrides} (h : ¬ o.Valid) :
    w.reconfigure o = w := by
  obtain ⟨fault, hfault⟩ := configure_error_iff_not_valid.2 h
  rw [reconfigure, hfault]

/-- Calls change nothing but the configuration. -/
theorem reconfigureAll_frame (w : Workspace M) (history : List Overrides) :
    ∃ config, w.reconfigureAll history = { w with config := config } := by
  induction history generalizing w with
  | nil => exact ⟨w.config, rfl⟩
  | cons o rest ih =>
      obtain ⟨config, hrest⟩ := ih (w.reconfigure o)
      rw [reconfigureAll, List.foldl_cons, ← reconfigureAll, hrest, reconfigure]
      split
      case h_1 hconfigure =>
        obtain ⟨_, -, rfl⟩ := Success.map_eq_ok_iff.1 hconfigure
        exact ⟨config, rfl⟩
      case h_2 => exact ⟨config, rfl⟩

/-- Along a history, where the settings had the last values that were given before it. -/
theorem has_lastGiven_of_history {w : Workspace M} {given : List Overrides}
    (h : ∀ s, w.config.Has s (s.lastGiven given)) (history : List Overrides) (s : Setting) :
    (w.reconfigureAll history).config.Has s (s.lastGiven (given ++ w.accepted history)) := by
  induction history generalizing w given with
  | nil => simpa [accepted, reconfigureAll] using h s
  | cons o rest ih =>
      rw [reconfigureAll, List.foldl_cons, ← reconfigureAll, reconfigure, accepted]
      split
      case h_1 after hconfigure =>
        obtain ⟨config, hmerge, rfl⟩ := Success.map_eq_ok_iff.1 hconfigure
        rw [List.append_cons]
        refine ih fun s => ?_
        rw [Setting.lastGiven_snoc]
        exact (h s).merge hmerge
      case h_2 => exact ih h

/-- What a workspace comes to that starts with the default configuration and is configured again and
again. Only its configuration changes, and that is valid at any time: every setting has the last
value given for it in a call that was not refused. A call is refused exactly if one of its values
cannot be given, and has no effect then. And overriding any configuration twice, by valid values, is
overriding it once by both together. -/
theorem configured_last_given (w : Workspace M) (history : List Overrides) :
    let start : Workspace M := { w with config := {} }
    let reached := start.reconfigureAll history
    (∃ config, reached = { w with config := config }) ∧
    (reached.config.missingRules.word = "deny" ∨ reached.config.missingRules.word = "raise") ∧
    reached.config.defaultAction.truthy = true ∧
    (∀ s, reached.config.Has s (s.lastGiven (start.accepted history))) ∧
    (∀ o, ((∃ fault, reached.configure o = .error fault) ↔ ¬ o.Valid) ∧
      (¬ o.Valid → reached.reconfigure o = reached)) ∧
    ∀ (c : Config) (a b : Overrides), a.Valid → b.Valid → ∃ m n, c.merge a = .ok m ∧
      m.merge b = .ok n ∧ c.merge (a.overriddenBy b) = .ok n := by
  intro start reached
  have hinitial : ∀ s, start.config.Has s (s.lastGiven []) := fun s => by cases s <;> rfl
  refine ⟨?_, reached.config.missingRules.word_eq, reached.config.defaultAction_truthy,
    fun s => has_lastGiven_of_history hinitial history s,
    fun o => ⟨configure_error_iff_not_valid, reconfigure_of_not_valid⟩, fun c a b ha hb => ?_⟩
  · obtain ⟨config, hreached⟩ := reconfigureAll_frame start history
    exact ⟨config, hreached⟩
  · obtain ⟨m, hm⟩ := Config.merge_ok_iff_valid.2 ha
    obtain ⟨n, hn⟩ := (Config.merge_ok_iff_valid (c := m)).2 hb
    exact ⟨m, n, hm, hn, (Config.merge_merge hm).symm.trans hn⟩

open Sample in
/-- Two calls that are refused for one of their values each, among calls that are not. -/
def tuning : List Overrides :=
  [{ missingRules := .text "raise", distinct := .text "" },
    { defaultAction := .text "", recordDecisions := .bool true },
    { defaultAction := .text "update", recordDecisions := .int 0 },
    { missingRules := .text "ignore", distinct := .bool true }]

open Sample in
theorem tuning_last_given :
    let reached := Workspace.reconfigureAll ({} : Workspace Entity) tuning
    reached.config.Has .missingRules (.text "raise") ∧
    reached.config.Has .defaultAction (.text "update") ∧
    reached.config.Has .recordDecisions (.int 0) ∧ reached.config.Has .distinct (.text "") ∧
    ∃ m n, Config.merge {} { distinct := .text "" } = .ok m ∧
      m.merge { recordDecisions := .int 0 } = .ok n ∧
      Config.merge {} { distinct := .text "", recordDecisions := .int 0 } = .ok n := by
  obtain ⟨-, -, -, hlast, -, hmerge⟩ := configured_last_given ({} : Workspace Entity) tuning
  refine ⟨hlast .missingRules, hlast .defaultAction, hlast .recordDecisions, hlast .distinct, ?_⟩
  refine hmerge {} { distinct := .text "" } { recordDecisions := .int 0 } ?_ ?_
  · exact Setting.forall_iff.2 ⟨by simp [Overrides.value], by simp [Overrides.value],
      fun _ => trivial, fun _ => trivial⟩
  · exact Setting.forall_iff.2 ⟨by simp [Overrides.value], by simp [Overrides.value],
      fun _ => trivial, fun _ => trivial⟩

end Workspace

end RowAccess
