import RowAccess.Proofs.JoinSet
import RowAccess.Sample.Schema
/-!
# What a reflector remembers

A reflector is told about enumerations and asked about attributes in any order, and it remembers
its answers. That it does so never shows: every answer is what the latest registration or else the
declaration of the model says, whatever was asked before.
-/

namespace RowAccess

namespace Reflector

/-- A call on a reflector: an attribute is declared to be an enumeration, or asked about. -/
inductive Call (M : Type) where
  | register (model : M) (key : Value) (declaration : Declaration)
  | ask (model : M) (key : String)

variable {M : Type} [DecidableEq M] (S : Schema M)

/-- What a call leaves of a reflector; a registration that fails leaves it as it was. -/
def perform (r : Reflector M) : Call M → Reflector M
  | .register model key declaration =>
    match r.register S model key declaration with
    | .ok told => told
    | .error _ => r
  | .ask model key => (r.attributeKind S model key).2

/-- What a sequence of calls leaves of a reflector. -/
def after (r : Reflector M) (history : List (Call M)) : Reflector M :=
  history.foldl (perform S) r

/-- The names that a call registers for an attribute: it has to be about this attribute, the
attribute has to be a column, and the declaration has to be readable. -/
def Call.registers? (model : M) (key : String) : Call M → Option (List (Value × Value))
  | .register m k declaration =>
    if m = model ∧ k.text? = some key ∧ ((S.model m).column? key).isSome = true then
      declaration.names.toOption
    else none
  | .ask _ _ => none

/-- The names that were last registered for an attribute. -/
def latest? (history : List (Call M)) (model : M) (key : String) : Option (List (Value × Value)) :=
  history.reverse.findSome? (Call.registers? S model key)

/-- What an attribute is according to its latest registration, or else to the model's own
declaration, or else by default. -/
def kindAfter (history : List (Call M)) (model : M) (key : String) : Except Fault AttributeKind :=
  match latest? S history model key with
  | some names => .ok (kindOfNames S model key names)
  | none =>
    match (S.model model).declaration? key with
    | some declaration => declaration.names.map (kindOfNames S model key)
    | none => .ok .scalar

variable {S} {r told : Reflector M} {model : M} {key : String}

/-- A registration needs a column and a readable declaration. It comes before the older ones, and
the answer that was remembered for its attribute is dropped. -/
theorem register_eq_ok_iff {k : Value} {declaration : Declaration} :
    r.register S model k declaration = .ok told ↔
      ∃ key names, k.text? = some key ∧ ((S.model model).column? key).isSome = true ∧
        declaration.names = .ok names ∧
        told = ⟨((model, key), names) :: r.registered,
          r.remembered.filter fun entry => entry.1 != (model, key)⟩ := by
  unfold register
  simp only [Success.bind_eq_ok_iff, Except.ok.injEq]
  constructor
  · rintro ⟨c, hc, names, hnames, rfl⟩
    obtain ⟨key, hkey, hfound⟩ := Schema.column_eq_ok_iff.1 hc
    rw [Model.key_of_column? hfound]
    exact ⟨key, names, hkey, by simp [hfound], hnames, rfl⟩
  · rintro ⟨key, names, hkey, hfound, hnames, rfl⟩
    obtain ⟨c, hc⟩ := Option.isSome_iff_exists.1 hfound
    refine ⟨c, Schema.column_eq_ok_iff.2 ⟨key, hkey, hc⟩, names, hnames, ?_⟩
    rw [Model.key_of_column? hc]

/-! ## What is registered -/

/-- What is registered after a call: what the call registers, or else what was registered before. -/
theorem lookup_perform (r : Reflector M) (call : Call M) (model : M) (key : String) :
    (r.perform S call).registered.lookup (model, key) =
      (call.registers? S model key).or (r.registered.lookup (model, key)) := by
  cases call with
  | ask m k =>
      simp only [perform, attributeKind]
      cases r.kind S m k <;> rfl
  | register m k declaration =>
      simp only [perform, Call.registers?]
      cases hcall : r.register S m k declaration with
      | ok told =>
          obtain ⟨name, names, hname, hfound, hnames, rfl⟩ := register_eq_ok_iff.1 hcall
          rw [List.lookup_cons, hname, hnames]
          by_cases hplace : m = model ∧ name = key
          · obtain ⟨rfl, rfl⟩ := hplace
            simp [hfound, Except.toOption]
          · have hother : ((model, key) == (m, name)) = false := by
              rw [beq_eq_false_iff_ne, Ne, Prod.mk.injEq]
              exact fun h => hplace ⟨h.1.symm, h.2.symm⟩
            have hskip : ¬ (m = model ∧ some name = some key ∧
                ((S.model m).column? key).isSome = true) :=
              fun h => hplace ⟨h.1, Option.some.inj h.2.1⟩
            rw [hother, if_neg hskip]
            rfl
      | error fault =>
          have hnone : (if m = model ∧ k.text? = some key ∧ ((S.model m).column? key).isSome = true
              then declaration.names.toOption else none) = none := by
            split
            · rename_i hplace
              cases hnames : declaration.names with
              | error _ => rfl
              | ok names =>
                  rw [register_eq_ok_iff.2 ⟨key, names, hplace.2.1, hplace.2.2, hnames, rfl⟩]
                    at hcall
                  cases hcall
            · rfl
          rw [hnone, Option.none_or]

/-- After a sequence of calls the latest registration counts. -/
theorem lookup_after (r : Reflector M) (history : List (Call M)) (model : M) (key : String) :
    (r.after S history).registered.lookup (model, key) =
      (latest? S history model key).or (r.registered.lookup (model, key)) := by
  induction history generalizing r with
  | nil => rfl
  | cons call history ih =>
      have hstep := ih (r.perform S call)
      rw [lookup_perform, ← Option.or_assoc] at hstep
      rw [latest?, List.reverse_cons, List.findSome?_append]
      simpa [after, latest?] using hstep

theorem declaredKind_congr {r r' : Reflector M}
    (h : r.registered.lookup (model, key) = r'.registered.lookup (model, key)) :
    r.declaredKind S model key = r'.declaredKind S model key := by
  rw [declaredKind, declaredKind, h]

theorem declaredKind_after (history : List (Call M)) (model : M) (key : String) :
    declaredKind S (Reflector.empty.after S history) model key = kindAfter S history model key := by
  rw [declaredKind, lookup_after, empty, List.lookup_nil, Option.or_none]
  rfl

/-! ## What is remembered -/

/-- Everything a reflector remembers is what it would answer without remembering it. -/
def Faithful (S : Schema M) (r : Reflector M) : Prop :=
  ∀ model key kind, ((model, key), kind) ∈ r.remembered → r.declaredKind S model key = .ok kind

theorem Faithful.kind_eq (h : r.Faithful S) (model : M) (key : String) :
    r.kind S model key = r.declaredKind S model key := by
  unfold kind
  cases hfound : r.remembered.lookup (model, key) with
  | none => rfl
  | some kind =>
      obtain ⟨before, after, heq, -⟩ := List.lookup_eq_some_iff.1 hfound
      exact (h model key kind (by simp [heq])).symm

theorem Faithful.empty : (Reflector.empty : Reflector M).Faithful S := by
  simp [Faithful, Reflector.empty]

theorem Faithful.perform (h : r.Faithful S) (call : Call M) : (r.perform S call).Faithful S := by
  cases call with
  | ask m k =>
      simp only [Reflector.perform, attributeKind]
      cases hkind : r.kind S m k with
      | error fault => exact h
      | ok kind =>
          intro model key found hfound
          rcases List.mem_cons.1 hfound with heq | hold
          · obtain ⟨hplace, rfl⟩ := Prod.mk.inj heq
            obtain ⟨rfl, rfl⟩ := Prod.mk.inj hplace
            have hdeclared := (h.kind_eq model key).symm.trans hkind
            exact (declaredKind_congr rfl).trans hdeclared
          · exact h model key found hold
  | register m k declaration =>
      simp only [Reflector.perform]
      cases hcall : r.register S m k declaration with
      | error fault => exact h
      | ok told =>
          obtain ⟨name, names, -, -, -, rfl⟩ := register_eq_ok_iff.1 hcall
          intro model key found hfound
          -- What is still remembered is about another attribute than the registered one.
          obtain ⟨hold, hother⟩ := List.mem_filter.1 hfound
          rw [← h model key found hold]
          apply declaredKind_congr
          have hne : ((model, key) == (m, name)) = false := by simpa using hother
          rw [List.lookup_cons, hne]

theorem Faithful.after (h : r.Faithful S) (history : List (Call M)) :
    (r.after S history).Faithful S := by
  induction history generalizing r with
  | nil => exact h
  | cons call history ih => exact ih (h.perform call)

/-! ## Answers -/

/-- The answer that a reflector gives about an attribute after a sequence of calls. -/
def answerAfter (S : Schema M) (history : List (Call M)) (model : M) (key : String) :
    Except Fault AttributeKind :=
  ((Reflector.empty.after S history).attributeKind S model key).1

theorem answerAfter_eq_declaredKind (history : List (Call M)) (model : M) (key : String) :
    answerAfter S history model key =
      (Reflector.empty.after S history).declaredKind S model key := by
  have hfaithful := (Faithful.empty (S := S)).after history
  rw [← hfaithful.kind_eq, answerAfter, attributeKind]
  cases (Reflector.empty.after S history).kind S model key <;> rfl

/-- A registration succeeds exactly if it registers names for some attribute of its model. -/
theorem exists_register_iff {k : Value} {declaration : Declaration} :
    (∃ told, r.register S model k declaration = .ok told) ↔
      ∃ key names, Call.registers? S model key (.register model k declaration) = some names := by
  simp only [register_eq_ok_iff, Call.registers?]
  constructor
  · rintro ⟨-, key, names, hkey, hfound, hnames, -⟩
    exact ⟨key, names, by simp [hkey, hfound, hnames, Except.toOption]⟩
  · rintro ⟨key, names, h⟩
    split at h
    · rename_i hplace
      refine ⟨_, key, names, hplace.2.1, hplace.2.2, ?_, rfl⟩
      cases hnames : declaration.names with
      | error fault => simp [hnames, Except.toOption] at h
      | ok found => simpa [hnames, Except.toOption] using h
    · cases h

/-- A call that does not register an attribute changes no later answer about it. -/
theorem answerAfter_skip {call : Call M} (h : call.registers? S model key = none)
    (earlier later : List (Call M)) :
    answerAfter S (earlier ++ call :: later) model key =
      answerAfter S (earlier ++ later) model key := by
  have hlatest : latest? S (earlier ++ call :: later) model key =
      latest? S (earlier ++ later) model key := by
    simp [latest?, List.findSome?_append, h]
  rw [answerAfter_eq_declaredKind, answerAfter_eq_declaredKind, declaredKind_after,
    declaredKind_after, kindAfter, kindAfter, hlatest]

/-- After any sequence of calls, some of which may fail, a reflector answers what it would answer
without remembering anything: the enumeration of the latest registration of exactly this attribute,
or else what the model declares, or else that it is a scalar. A registration that fails changes no
later answer, and neither does one of another attribute, or a question. -/
theorem attributeKind_after (S : Schema M) (history : List (Call M)) (model : M) (key : String) :
    answerAfter S history model key = (Reflector.empty.after S history).declaredKind S model key ∧
    answerAfter S history model key = kindAfter S history model key ∧
    (∀ m k declaration,
      (∃ told, (Reflector.empty.after S history).register S m k declaration = .ok told) ↔
        ∃ name names, Call.registers? S m name (.register m k declaration) = some names) ∧
    (∀ later m k declaration fault,
      (Reflector.empty.after S history).register S m k declaration = .error fault →
      answerAfter S (history ++ .register m k declaration :: later) model key =
        answerAfter S (history ++ later) model key) ∧
    (∀ later m k declaration, ¬ (m = model ∧ k.text? = some key) →
      answerAfter S (history ++ .register m k declaration :: later) model key =
        answerAfter S (history ++ later) model key) ∧
    ∀ later m k, answerAfter S (history ++ .ask m k :: later) model key =
      answerAfter S (history ++ later) model key := by
  refine ⟨answerAfter_eq_declaredKind history model key, ?_, fun m k declaration =>
    exists_register_iff, fun later m k declaration fault hfails => ?_,
    fun later m k declaration hother => ?_, fun later m k => answerAfter_skip rfl history later⟩
  · rw [answerAfter_eq_declaredKind, declaredKind_after]
  · apply answerAfter_skip
    cases hcall : Call.registers? S model key (.register m k declaration) with
    | none => rfl
    | some names =>
        have hmodel : m = model := by
          simp only [Call.registers?] at hcall
          split at hcall
          · rename_i hplace
            exact hplace.1
          · cases hcall
        subst hmodel
        obtain ⟨told, htold⟩ := (exists_register_iff (r := Reflector.empty.after S history)).2
          ⟨key, names, hcall⟩
        rw [hfails] at htold
        cases htold
  · apply answerAfter_skip
    rw [Call.registers?, if_neg fun hplace => hother ⟨hplace.1, hplace.2.1⟩]

open Sample in
/-- A status asked about before and after it is registered: the answer follows the registration, not
the question before it, and neither an unreadable declaration nor a registration of another
attribute changes it. -/
theorem attributeKind_after_status :
    let history : List (Call Entity) :=
      [.ask .post "status", .register .post (.text "status") (declared [("draft", 0)])]
    let unreadable : Declaration := .ofValue (.int 3)
    answerAfter schema history .post "status" =
        .ok (kindOfNames schema .post "status" [(.text "draft", .int 0)]) ∧
      (Reflector.empty.after schema history).register schema .post (.text "status") unreadable =
        .error (.notIterable "int") ∧
      answerAfter schema (history ++ .register .post (.text "status") unreadable :: []) .post
        "status" = answerAfter schema (history ++ []) .post "status" ∧
      ¬ (Entity.article = .post ∧ (Value.text "status").text? = some "status") ∧
      answerAfter schema (history ++ .register .article (.text "status") (declared []) :: []) .post
        "status" = answerAfter schema (history ++ []) .post "status" := by
  intro history unreadable
  obtain ⟨-, hlatest, -, hfails, hother, -⟩ := attributeKind_after schema history .post "status"
  have hunreadable : (Reflector.empty.after schema history).register schema .post (.text "status")
      unreadable = .error (.notIterable "int") := rfl
  have harticle : ¬ (Entity.article = .post ∧ (Value.text "status").text? = some "status") := by
    simp
  exact ⟨hlatest, hunreadable, hfails [] _ _ _ _ hunreadable, harticle, hother [] _ _ _ harticle⟩

end Reflector

end RowAccess
