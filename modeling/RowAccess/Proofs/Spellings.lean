import RowAccess.Proofs.Decoding
import RowAccess.Proofs.OppositeComparisons
/-!
# Spellings

On an enumeration attribute an integer is asked for by one of its names, by a member of such a name
or by itself. Wherever in a tree such a value stands, alone or in a collection, exchanging its
spelling for another one leaves what the tree compiles to as it is. Decoding all values beforehand
is the case where only integers are left.
-/

namespace RowAccess

/-! ## Leaves -/

namespace EnumAttribute

variable {e : EnumAttribute} {value value' : Value} {operand : Operand}

/-- Two values of conditions ask for the same, both alone or both element by element. -/
inductive AlikeAsked (e : EnumAttribute) (value value' : Value) : Prop
  | one (hone : value.elements? = none) (hone' : value'.elements? = none)
      (halike : e.Alike value value')
  | many {items items' : List Value} (hmany : value.elements? = some items)
      (hmany' : value'.elements? = some items') (halike : List.Forall₂ e.Alike items items')

theorem forall_isScalar_of_alike {items items' : List Value}
    (halike : List.Forall₂ e.Alike items items') (h : ∀ v ∈ items, v.isScalar = true) :
    ∀ v ∈ items', v.isScalar = true := by
  induction halike with
  | nil => exact h
  | cons hfirst _ ih =>
      rw [List.forall_mem_cons] at h ⊢
      exact ⟨hfirst.isScalar_eq ▸ h.1, ih h.2⟩

theorem mapM_decode_of_alike {items items' : List Value}
    (halike : List.Forall₂ e.Alike items items') : items.mapM e.decode = items'.mapM e.decode := by
  induction halike with
  | nil => rfl
  | cons hfirst _ ih => rw [List.mapM_cons, List.mapM_cons, hfirst.decode_eq, ih]

theorem AlikeAsked.readsAs (h : e.AlikeAsked value value')
    (hreads : (AttributeKind.enumeration e).ReadsAs value operand) :
    (AttributeKind.enumeration e).ReadsAs value' operand := by
  cases h with
  | one hone hone' halike =>
      cases hreads with
      | one _ hscalar hdecode =>
          refine .one hone' (halike.isScalar_eq ▸ hscalar) ?_
          show e.decode value' = _
          rw [← halike.decode_eq]
          exact hdecode
      | many hmany _ _ =>
          rw [hone] at hmany
          cases hmany
  | @many items items' hmany hmany' halike =>
      cases hreads with
      | one hone _ _ =>
          rw [hone] at hmany
          cases hmany
      | many hitems hscalar hdecode =>
          obtain rfl := Option.some.inj (hmany.symm.trans hitems)
          refine .many hmany' (forall_isScalar_of_alike halike hscalar) ?_
          show items'.mapM e.decode = _
          rw [← mapM_decode_of_alike halike]
          exact hdecode

/-- A value with all that it asks for decoded; what cannot be decoded stays as it is. -/
def decodeAsked (e : EnumAttribute) (value : Value) : Value :=
  let decoded v := (e.decode v).toOption.getD v
  match value.elements? with
  | some items => .list (items.map decoded)
  | none => decoded value

theorem OfIntegers.elements?_of_decode (h : e.OfIntegers) {w : Value}
    (hw : e.decode value = .ok w) : w.elements? = none ∧ w.isMapping = false := by
  obtain ⟨-, rfl⟩ | ⟨n, -, rfl⟩ := h.decode_eq_ok_iff.1 hw
  · exact ⟨rfl, rfl⟩
  · exact ⟨rfl, rfl⟩

/-- Decoded, a value that can be compared with still asks for the same. -/
theorem OfIntegers.alikeAsked_decodeAsked (h : e.OfIntegers)
    (hreads : (AttributeKind.enumeration e).ReadsAs value operand) :
    e.AlikeAsked value (e.decodeAsked value) ∧ (e.decodeAsked value).isMapping = false := by
  have hdecoded : ∀ {v w}, (AttributeKind.enumeration e).decode v = .ok w →
      (e.decode v).toOption.getD v = w := by
    intro v w hw
    rw [show e.decode v = .ok w from hw]
    rfl
  unfold decodeAsked
  cases hreads with
  | one hone hscalar hdecode =>
      rw [hone]
      dsimp only
      rw [hdecoded hdecode]
      obtain ⟨hone', hmapping⟩ := h.elements?_of_decode hdecode
      exact ⟨.one hone hone' (h.alike_of_decode hdecode), hmapping⟩
  | @many items values hmany hscalar hdecode =>
      rw [hmany]
      dsimp only
      refine ⟨.many hmany rfl ?_, rfl⟩
      rw [List.forall₂_map_right_iff, List.forall₂_same]
      intro v hv
      obtain ⟨w, -, hw⟩ := Success.exists_of_mapM hdecode hv
      rw [hdecoded hw]
      exact h.alike_of_decode hw

end EnumAttribute

/-- All enumerations that a reflector knows of are enumerations of integers. -/
def Reflector.OfIntegers {M : Type} [DecidableEq M] (S : Schema M) (reflector : Reflector M) :
    Prop :=
  ∀ model key e, reflector.kind S model key = .ok (.enumeration e) → e.OfIntegers

namespace Schema

variable {M : Type} [DecidableEq M] (S : Schema M) (reflector : Reflector M)

/-- A leaf with its values decoded, if its column is an enumeration attribute. -/
def decodeLeaf (model : M) (key value : Value) : Value :=
  match (S.column model key).bind fun column => reflector.kind S model column.key with
  | .ok (.enumeration e) => e.decodeAsked value
  | _ => value

mutual

/-- The value of a key with all leaves on enumeration attributes decoded. -/
def decodeValue (model : M) (key : Value) : Value → Value
  | .mapping packing entries =>
    match S.relationship model key with
    | .ok r => .mapping packing (decodeEntries r.target entries)
    | .error _ => .mapping packing entries
  | value => S.decodeLeaf reflector model key value
termination_by structural v => v

/-- The entries of a tree with all leaves on enumeration attributes decoded. -/
def decodeEntries (model : M) : List (Value × Value) → List (Value × Value)
  | [] => []
  | (key, value) :: rest => (key, decodeValue model key value) :: decodeEntries model rest
termination_by structural v => v

end

/-- Under a key of a model two values ask for the same: they are the same, or the key names an
enumeration attribute on which they do. -/
def AlikeAt (model : M) (key value value' : Value) : Prop :=
  value = value' ∨ ∃ column e, S.column model key = .ok column ∧
    reflector.kind S model column.key = .ok (.enumeration e) ∧ e.AlikeAsked value value'

/-- Two trees differ in the spelling of values on enumeration attributes only. -/
inductive AlikeEntries : M → List (Value × Value) → List (Value × Value) → Prop
  | nil {model : M} : AlikeEntries model [] []
  | leaf {model : M} {key value value' : Value} {rest rest' : List (Value × Value)}
      (hvalue : value.isMapping = false) (hvalue' : value'.isMapping = false)
      (halike : S.AlikeAt reflector model key value value')
      (hrest : AlikeEntries model rest rest') :
      AlikeEntries model ((key, value) :: rest) ((key, value') :: rest')
  | nested {model : M} {key : Value} {r : Relationship M} {packing : Packing}
      {entries entries' rest rest' : List (Value × Value)}
      (hr : S.relationship model key = .ok r) (hentries : AlikeEntries r.target entries entries')
      (hrest : AlikeEntries model rest rest') :
      AlikeEntries model ((key, .mapping packing entries) :: rest)
        ((key, .mapping packing entries') :: rest')

variable {S reflector} {model : M} {key value value' : Value} {leaf : Leaf}

/-- What asks for the same is read as the same leaf. -/
theorem AlikeAt.readLeaf (h : S.AlikeAt reflector model key value value')
    (hread : S.readLeaf reflector model key value = .ok leaf) :
    S.readLeaf reflector model key value' = .ok leaf := by
  obtain rfl | ⟨column, e, hcolumn, hkind, halike⟩ := h
  · exact hread
  · obtain ⟨hcolumn', kind, hkind', hreads⟩ := readLeaf_eq_ok_iff.1 hread
    obtain rfl := Except.ok.inj (hcolumn.symm.trans hcolumn')
    obtain rfl := Except.ok.inj (hkind.symm.trans hkind')
    exact readLeaf_eq_ok_iff.2 ⟨hcolumn, _, hkind, halike.readsAs hreads⟩

/-- A leaf that can be read asks for the same when it is decoded. -/
theorem alikeAt_decodeLeaf (hintegers : reflector.OfIntegers S) (hvalue : value.isMapping = false)
    (hread : S.readLeaf reflector model key value = .ok leaf) :
    S.AlikeAt reflector model key value (S.decodeLeaf reflector model key value) ∧
      (S.decodeLeaf reflector model key value).isMapping = false := by
  obtain ⟨hcolumn, kind, hkind, hreads⟩ := readLeaf_eq_ok_iff.1 hread
  have hdecode : (S.column model key).bind (fun column => reflector.kind S model column.key) =
      .ok kind := by
    rw [hcolumn]
    exact hkind
  unfold decodeLeaf
  rw [hdecode]
  cases kind with
  | scalar => exact ⟨.inl rfl, hvalue⟩
  | enumeration e =>
      obtain ⟨halike, hmapping⟩ := (hintegers _ _ _ hkind).alikeAsked_decodeAsked hreads
      exact ⟨.inr ⟨_, e, hcolumn, hkind, halike⟩, hmapping⟩

end Schema

namespace Position

variable {M : Type} [DecidableEq M] {S : Schema M} {reflector : Reflector M} {p : Position M}
  {comparator : Comparator} {packing : Packing} {entries entries' : List (Value × Value)}
  {filters : List (Filter M)} {filter : Filter M}

omit [DecidableEq M] in
theorem conjunction_congr {tree other : Value} (h : p.conjunction tree filters = .ok filter) :
    p.conjunction other filters = .ok filter := by
  cases filters with
  | nil => cases h
  | cons first rest => exact h

/-- Trees that differ in spellings only compile to the same comparisons. -/
theorem comparisons_of_alike {model : M} (halike : S.AlikeEntries reflector model entries entries')
    (hmodel : p.model = model) (hreflector : p.reflector = reflector)
    (h : comparisons S comparator p entries = .ok filters) :
    comparisons S comparator p entries' = .ok filters := by
  induction halike generalizing p filters with
  | nil => exact h
  | leaf hvalue hvalue' halike _ ih =>
      subst hmodel hreflector
      obtain ⟨filter, others, hfilter, hothers, rfl⟩ := comparisons_cons_eq_ok_iff.1 h
      obtain ⟨leaf, hread, rfl⟩ := (comparison_leaf_eq_ok_iff hvalue).1 hfilter
      refine comparisons_cons_eq_ok_iff.2 ⟨_, others, ?_, ih rfl rfl hothers, rfl⟩
      exact (comparison_leaf_eq_ok_iff hvalue').2 ⟨leaf, halike.readLeaf hread, rfl⟩
  | nested hr _ _ ihEntries ihRest =>
      subst hmodel hreflector
      obtain ⟨filter, others, hfilter, hothers, rfl⟩ := comparisons_cons_eq_ok_iff.1 h
      obtain ⟨child, inner, hchild, hinner, hall⟩ := comparison_nested_eq_ok_iff.1 hfilter
      obtain ⟨⟨source, rfl⟩, -⟩ := facts_of_descend hr hchild
      refine comparisons_cons_eq_ok_iff.2 ⟨filter, others, ?_, ihRest rfl rfl hothers, rfl⟩
      exact comparison_nested_eq_ok_iff.2
        ⟨_, inner, hchild, ihEntries rfl rfl hinner, conjunction_congr hall⟩

/-- A tree that compiles differs from its decoded form in spellings only. -/
theorem alikeEntries_decodeEntries (hintegers : p.reflector.OfIntegers S)
    (h : comparisons S comparator p entries = .ok filters) :
    S.AlikeEntries p.reflector p.model entries
      (S.decodeEntries p.reflector p.model entries) := by
  induction entries using Value.entries_induction generalizing p filters with
  | nil => exact .nil
  | leaf key value rest hvalue ih =>
      obtain ⟨filter, others, hfilter, hothers, rfl⟩ := comparisons_cons_eq_ok_iff.1 h
      obtain ⟨leaf, hread, -⟩ := (comparison_leaf_eq_ok_iff hvalue).1 hfilter
      have hdecode : S.decodeValue p.reflector p.model key value =
          S.decodeLeaf p.reflector p.model key value := by
        cases value with
        | mapping => cases hvalue
        | _ => rfl
      obtain ⟨halike, hmapping⟩ := Schema.alikeAt_decodeLeaf hintegers hvalue hread
      rw [Schema.decodeEntries, hdecode]
      exact .leaf hvalue hmapping halike (ih hintegers hothers)
  | nested key packing entries rest ihEntries ihRest =>
      obtain ⟨filter, others, hfilter, hothers, rfl⟩ := comparisons_cons_eq_ok_iff.1 h
      obtain ⟨child, inner, hchild, hinner, -⟩ := comparison_nested_eq_ok_iff.1 hfilter
      obtain ⟨r, hr, -⟩ := Success.bind_eq_ok_iff.1 hchild
      obtain ⟨⟨source, heq⟩, -⟩ := facts_of_descend hr hchild
      have hinside := ihEntries (p := child) (by rw [heq]; exact hintegers) hinner
      rw [heq] at hinside
      rw [Schema.decodeEntries, Schema.decodeValue, hr]
      exact .nested hr hinside (ihRest hintegers hothers)

omit [DecidableEq M] in
theorem reflector_of_follow {q : Position M} {path : JoinPath} (h : p.follow S path = .ok q) :
    q.reflector = p.reflector := by
  induction path generalizing p with
  | nil =>
      cases h
      rfl
  | cons name path ih =>
      obtain ⟨child, hchild, hq⟩ := Success.bind_eq_ok_iff.1 h
      obtain ⟨r, hr, -⟩ := Success.bind_eq_ok_iff.1 hchild
      obtain ⟨⟨source, heq⟩, -⟩ := facts_of_descend hr hchild
      rw [ih hq, heq]

theorem node_of_alike (halike : S.AlikeEntries p.reflector p.model entries entries')
    (h : p.node S comparator packing entries = .ok filter) :
    p.node S comparator packing entries' = .ok filter := by
  obtain ⟨filters, hfilters, hfilter⟩ := Success.bind_eq_ok_iff.1 h
  exact Success.bind_eq_ok_iff.2
    ⟨filters, comparisons_of_alike halike rfl rfl hfilters, conjunction_congr hfilter⟩

/-- A tree that compiles, where all enumerations are enumerations of integers. With its values
decoded it compiles to the same filter, and so does every tree that differs from it in spellings
only. On an enumeration attribute it asks for nothing but absent values and spellings of stored
integers, so neither for a truth value nor for an integer that is not stored. -/
theorem node_spellings (hintegers : p.reflector.OfIntegers S)
    (h : p.node S comparator packing entries = .ok filter) :
    p.node S comparator packing (S.decodeEntries p.reflector p.model entries) = .ok filter ∧
    (∀ entries', S.AlikeEntries p.reflector p.model entries entries' →
      p.node S comparator packing entries' = .ok filter) ∧
    ∀ path key value q column e, (Value.mapping packing entries).LeafAt path key value →
      p.follow S path = .ok q → S.column q.model key = .ok column →
      q.reflector.kind S q.model column.key = .ok (.enumeration e) →
      ∀ v ∈ value.asked, (v = .null ∨ ∃ n, e.Spells n v) ∧ (∀ b, v ≠ .bool b) ∧
        ∀ n, v = .int n → ∃ name, (name, .int n) ∈ e.names := by
  refine ⟨?_, fun entries' halike => node_of_alike halike h, ?_⟩
  · obtain ⟨filters, hfilters, -⟩ := Success.bind_eq_ok_iff.1 h
    exact node_of_alike (alikeEntries_decodeEntries hintegers hfilters) h
  · intro path key value q column e hleaf hq hcolumn hkind v hv
    obtain ⟨leaf, source, q', hq', hread, -⟩ := exists_readsAt h hleaf
    obtain rfl := Except.ok.inj (hq.symm.trans hq')
    obtain ⟨hcolumn', kind, hkind', hreads⟩ := Schema.readLeaf_eq_ok_iff.1 hread
    obtain rfl := Except.ok.inj (hcolumn.symm.trans hcolumn')
    obtain rfl := Except.ok.inj (hkind.symm.trans hkind')
    obtain ⟨w, hw⟩ := hreads.decodes hv
    have hofIntegers : e.OfIntegers := hintegers _ _ _ (reflector_of_follow hq ▸ hkind)
    obtain ⟨rfl, -⟩ | ⟨n, hspells, -⟩ := hofIntegers.decode_eq_ok_iff.1 hw
    · exact ⟨.inl rfl, by simp, by simp⟩
    · refine ⟨.inr ⟨n, hspells⟩, ?_, ?_⟩
      · rintro b rfl
        exact hspells
      · rintro k rfl
        obtain ⟨rfl, hstored⟩ := hspells
        exact hstored

open Sample in
/-- All enumerations of the sample schema are enumerations of integers. -/
theorem ofIntegers_sample : (Reflector.empty : Reflector Entity).OfIntegers schema := by
  have hdeclared : ∀ model, ∀ entry ∈ (schema.model model).declarations,
      ∃ names, entry.2.names = .ok names ∧ ∀ entry ∈ names, ∃ n, entry.2 = .int n := by
    intro model
    cases model
    all_goals simp [schema, describe, declared, Declaration.names, Declaration.entriesOfValue,
      Value.entries?, Enumeration.members, Enumeration.carrying?, Sample.kind, Value.ofContent,
      -Prod.forall]
  intro model key e hkind
  have hkind' : Reflector.declaredKind schema .empty model key = .ok (.enumeration e) := hkind
  unfold Reflector.declaredKind at hkind'
  rw [Reflector.empty, List.lookup_nil] at hkind'
  cases hfound : (schema.model model).declaration? key with
  | none =>
      rw [hfound] at hkind'
      cases hkind'
  | some declaration =>
      rw [hfound] at hkind'
      obtain ⟨entry, hentry, rfl⟩ := Option.map_eq_some_iff.1 hfound
      obtain ⟨names, hnames, hintegers⟩ := hdeclared model entry (List.mem_of_find?_eq_some hentry)
      dsimp only at hkind'
      rw [hnames] at hkind'
      obtain rfl := AttributeKind.enumeration.inj (Except.ok.inj hkind')
      exact hintegers

open Sample in
/-- Denying comments on posts with one of two statuses, or none: a name and a member are read like
the integers they are stored as. -/
theorem node_spellings_status :
    let comments : Position Entity := .root .comment none .empty
    let archived : Member := ⟨"PostStatus", "archived", .number 2⟩
    let spelled := [(Value.text "post", Value.plain
      [(.text "status", .tuple [.text "active", .null, .member archived])])]
    let stored := [(Value.text "post", Value.plain
      [(.text "status", .list [.int 1, .null, .int 2])])]
    comments.reflector.OfIntegers schema ∧
      ∃ filter, comments.node schema .distinct .plain spelled = .ok filter ∧
        comments.node schema .distinct .plain stored = .ok filter := by
  intro comments archived spelled stored
  have h : ∃ filter, comments.node schema .distinct .plain spelled = .ok filter := ⟨_, rfl⟩
  obtain ⟨filter, h⟩ := h
  obtain ⟨hdecoded, -, -⟩ := node_spellings ofIntegers_sample h
  exact ⟨ofIntegers_sample, filter, h, hdecoded⟩

end Position

end RowAccess
