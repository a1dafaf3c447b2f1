import RowAccess.Proofs.TreeFilter
/-!
# Entries and what can be wrong with them

A position in a condition tree counts the entries that are gone through from the root on; at it
stands a key with its value, read on the model that the keys before have led to. What is wrong there
is said without regard to the rest of the tree. The nested trees are those whose joins are planned.
-/

namespace RowAccess

/-- A place in a tree: a key and its value, read on a model that a path has led to. -/
structure Place (M : Type) where
  model : M
  path : JoinPath
  key : Value
  value : Value

/-- At a position of the entries of a tree stands a place. Nested trees are read on the model that
their key leads to, whatever else may be wrong with them. -/
inductive PlaceAt {M : Type} (S : Schema M) :
    M → JoinPath → List (Value × Value) → List Nat → Place M → Prop
  | here {model : M} {path : JoinPath} {entries : List (Value × Value)} {index : Nat}
      {key value : Value} (hentry : entries[index]? = some (key, value)) :
      PlaceAt S model path entries [index] ⟨model, path, key, value⟩
  | inside {model : M} {path : JoinPath} {entries nested : List (Value × Value)} {index : Nat}
      {key : Value} {packing : Packing} {r : Relationship M} {position : List Nat}
      {place : Place M} (hentry : entries[index]? = some (key, .mapping packing nested))
      (hr : S.relationship model key = .ok r)
      (hplace : PlaceAt S r.target (path ++ [r.name]) nested position place) :
      PlaceAt S model path entries (index :: position) place

variable {M : Type}

/-- What can be wrong at a place. The key has to be a text. A nested tree needs a relationship of
the model, its path has to be joined if there are joins, and it must not be empty. Any other value
needs a column whose declaration can be read; then all values that are asked for have to be such
that a column can be compared with them, and on an enumeration all of them have to be stored for
something. -/
inductive Place.Flawed [DecidableEq M] (S : Schema M) (reflector : Reflector M)
    (joins : Option (JoinSet M)) (p : Place M) : Fault → Prop
  | keyNotText (hkey : p.key.text? = none) :
      Flawed S reflector joins p (.malformedTree p.key p.value .keyNotText)
  | relationship {name : String} (hkey : p.key.text? = some name)
      (hvalue : p.value.isMapping = true)
      (hmissing : (S.model p.model).relationship? name = none) :
      Flawed S reflector joins p (.noRelationship (S.model p.model).name p.key)
  | notJoined {r : Relationship M} {joined : JoinSet M}
      (hr : S.relationship p.model p.key = .ok r) (hvalue : p.value.isMapping = true)
      (hjoins : joins = some joined) (hpath : p.path ++ [r.name] ∉ joined.paths) :
      Flawed S reflector joins p (.notJoined (p.path ++ [r.name]))
  | empty {r : Relationship M} {packing : Packing} (hr : S.relationship p.model p.key = .ok r)
      (hvalue : p.value = .mapping packing [])
      (hjoined : ∀ joined, joins = some joined → p.path ++ [r.name] ∈ joined.paths) :
      Flawed S reflector joins p
        (.malformedTree (.text r.name) p.value (.empty (p.path ++ [r.name])))
  | column {name : String} (hkey : p.key.text? = some name) (hvalue : p.value.isMapping = false)
      (hmissing : (S.model p.model).column? name = none) :
      Flawed S reflector joins p (.noColumn (S.model p.model).name p.key)
  | declaration {column : Column} {fault : Fault} (hvalue : p.value.isMapping = false)
      (hcolumn : S.column p.model p.key = .ok column)
      (hkind : reflector.kind S p.model column.key = .error fault) :
      Flawed S reflector joins p fault
  | unsupported {column : Column} {kind : AttributeKind} {before after : List Value} {item : Value}
      (hvalue : p.value.isMapping = false) (hcolumn : S.column p.model p.key = .ok column)
      (hkind : reflector.kind S p.model column.key = .ok kind)
      (hasked : p.value.asked = before ++ item :: after) (hbefore : ∀ v ∈ before, v.isScalar = true)
      (hitem : item.isScalar = false) :
      Flawed S reflector joins p (.unsupported p.key item)
  | undecodable {column : Column} {e : EnumAttribute} {before after : List Value} {item : Value}
      (hvalue : p.value.isMapping = false) (hcolumn : S.column p.model p.key = .ok column)
      (hkind : reflector.kind S p.model column.key = .ok (.enumeration e))
      (hscalar : ∀ v ∈ p.value.asked, v.isScalar = true)
      (hasked : p.value.asked = before ++ item :: after)
      (hbefore : ∀ v ∈ before, ∃ stored, e.decode v = .ok stored)
      (hitem : ∀ stored, e.decode item ≠ .ok stored) :
      Flawed S reflector joins p (.invalidEnumValue (.text e.model) (.text e.key) item)

/-- At a position of a rule stands a place, if its conditions are a tree. -/
def Rule.PlaceAt (S : Schema M) (model : M) (rule : Rule) (position : List Nat) (place : Place M) :
    Prop :=
  ∃ packing entries, rule.conditions = .mapping packing entries ∧
    RowAccess.PlaceAt S model [] entries position place

/-- The path that the nested tree at a place is read along. -/
def Place.Asks (S : Schema M) (p : Place M) (path : JoinPath) : Prop :=
  p.value.isMapping = true ∧ ∃ r, S.relationship p.model p.key = .ok r ∧ path = p.path ++ [r.name]

/-- At a position of a rule a nested tree is read along a path. -/
def Rule.Asks (S : Schema M) (model : M) (rule : Rule) (position : List Nat) (path : JoinPath) :
    Prop :=
  ∃ place, rule.PlaceAt S model position place ∧ place.Asks S path

/-! ## Positions -/

section Positions

variable {S : Schema M} {model : M} {path : JoinPath} {entries : List (Value × Value)}

theorem not_placeAt_nil {place : Place M} : ¬ PlaceAt S model path entries [] place := nofun

/-- A place is that of an entry, or lies in a nested tree of that entry. -/
theorem placeAt_cons {index : Nat} {position : List Nat} {place : Place M} :
    PlaceAt S model path entries (index :: position) place ↔
      ∃ key value, entries[index]? = some (key, value) ∧
        (position = [] ∧ place = ⟨model, path, key, value⟩ ∨
          ∃ packing nested r, value = .mapping packing nested ∧ S.relationship model key = .ok r ∧
            PlaceAt S r.target (path ++ [r.name]) nested position place) := by
  constructor
  · intro h
    cases h with
    | here hentry => exact ⟨_, _, hentry, .inl ⟨rfl, rfl⟩⟩
    | inside hentry hr hplace => exact ⟨_, _, hentry, .inr ⟨_, _, _, rfl, hr, hplace⟩⟩
  · rintro ⟨key, value, hentry, ⟨rfl, rfl⟩ | ⟨packing, nested, r, rfl, hr, hplace⟩⟩
    · exact .here hentry
    · exact .inside hentry hr hplace

theorem PlaceAt.unique {position : List Nat} {place other : Place M}
    (h : PlaceAt S model path entries position place)
    (h' : PlaceAt S model path entries position other) : place = other := by
  induction h with
  | here hentry =>
      cases h' with
      | here hentry' =>
          cases hentry.symm.trans hentry'
          rfl
      | inside _ _ hplace => cases hplace
  | inside hentry hr hplace ih =>
      cases h' with
      | here => cases hplace
      | inside hentry' hr' hplace' =>
          cases hentry.symm.trans hentry'
          cases hr.symm.trans hr'
          exact ih hplace'

theorem Rule.PlaceAt.unique {rule : Rule} {position : List Nat} {place other : Place M}
    (h : rule.PlaceAt S model position place) (h' : rule.PlaceAt S model position other) :
    place = other := by
  obtain ⟨packing, entries, hrule, h⟩ := h
  obtain ⟨packing', entries', hrule', h'⟩ := h'
  obtain ⟨-, rfl⟩ := Value.mapping.inj (hrule.symm.trans hrule')
  exact RowAccess.PlaceAt.unique h h'

end Positions

/-! ## Planned joins -/

section Planned

variable {S : Schema M} {model : M}

theorem JoinSet.pathOf?_snoc {keys : List Value} {key : Value} {names : JoinPath} {name : String}
    (hkeys : pathOf? keys = some names) (hkey : key.text? = some name) :
    pathOf? (keys ++ [key]) = some (names ++ [name]) := by
  induction keys generalizing names with
  | nil =>
      obtain rfl := Option.some.inj hkeys
      exact Value.pathOf?_cons_eq_some_iff.2 ⟨name, [], hkey, rfl, rfl⟩
  | cons first keys ih =>
      obtain ⟨text, rest, htext, hrest, rfl⟩ := Value.pathOf?_cons_eq_some_iff.1 hkeys
      exact Value.pathOf?_cons_eq_some_iff.2 ⟨text, rest ++ [name], htext, ih hrest, rfl⟩

theorem JoinSet.exists_text_of_pathOf? {keys : List Value} {path : JoinPath}
    (h : pathOf? keys = some path) {key : Value} (hkey : key ∈ keys) :
    ∃ name, key.text? = some name := by
  induction keys generalizing path with
  | nil => cases hkey
  | cons first keys ih =>
      obtain ⟨name, rest, hname, hrest, -⟩ := Value.pathOf?_cons_eq_some_iff.1 h
      rcases List.mem_cons.1 hkey with rfl | hlater
      · exact ⟨name, hname⟩
      · exact ih hrest hlater

/-- The keys of a nested tree are planned to be joined. -/
theorem PlaceAt.planned {path : JoinPath} {entries : List (Value × Value)} {position : List Nat}
    {place : Place M} (h : PlaceAt S model path entries position place)
    (hvalue : place.value.isMapping = true) :
    ∃ keys names, keys ++ [place.key] ∈ Value.joinPathsOfEntries entries ∧
      JoinSet.pathOf? keys = some names ∧ place.path = path ++ names := by
  induction h with
  | @here model path entries index key value hentry =>
      exact ⟨[], [], Value.mem_joinPathsOfEntries.2
        ⟨key, value, [], List.mem_of_getElem? hentry, hvalue, rfl, .inl rfl⟩, rfl, by simp⟩
  | @inside model path entries nested index key packing r position place hentry hr _ ih =>
      obtain ⟨keys, names, hkeys, hnames, hpath⟩ := ih hvalue
      obtain ⟨name, hname, hfound⟩ := Schema.relationship_eq_ok_iff.1 hr
      obtain rfl := Model.name_of_relationship? hfound
      exact ⟨key :: keys, r.name :: names, Value.mem_joinPathsOfEntries.2
        ⟨key, _, keys ++ [place.key], List.mem_of_getElem? hentry, rfl, rfl, .inr hkeys⟩,
        Value.pathOf?_cons_eq_some_iff.2 ⟨r.name, names, hname, hnames, rfl⟩, by simp [hpath]⟩

/-- A path that a nested tree is read along is planned to be joined. -/
theorem Rule.Asks.planned {rule : Rule} {position : List Nat} {path : JoinPath}
    (h : rule.Asks S model position path) :
    ∃ keys ∈ rule.conditions.joinPaths, JoinSet.pathOf? keys = some path := by
  obtain ⟨place, ⟨packing, entries, hrule, hplace⟩, hvalue, r, hr, rfl⟩ := h
  obtain ⟨keys, names, hkeys, hnames, hpath⟩ := hplace.planned hvalue
  obtain ⟨name, hname, hfound⟩ := Schema.relationship_eq_ok_iff.1 hr
  obtain rfl := Model.name_of_relationship? hfound
  rw [hrule]
  refine ⟨keys ++ [place.key], hkeys, ?_⟩
  rw [hpath, List.nil_append]
  exact JoinSet.pathOf?_snoc hnames hname

/-- Keys that are planned to be joined come, as far as they can be followed, to a nested tree. -/
theorem exists_placeAt_of_planned {names : JoinPath} {entries : List (Value × Value)}
    {found rest : List Value} {key : Value} {reached : M} (path : JoinPath)
    (hkeys : found ++ key :: rest ∈ Value.joinPathsOfEntries entries)
    (hnames : JoinSet.pathOf? found = some names) (hreached : S.follow model names = some reached) :
    ∃ position value, PlaceAt S model path entries position ⟨reached, path ++ names, key, value⟩ ∧
      value.isMapping = true := by
  induction found generalizing model path names entries with
  | nil =>
      obtain rfl : [] = names := Option.some.inj hnames
      obtain rfl := Option.some.inj hreached
      obtain ⟨first, value, rest', hentry, hvalue, heq, -⟩ := Value.mem_joinPathsOfEntries.1 hkeys
      obtain ⟨rfl, -⟩ := List.cons.inj heq
      obtain ⟨index, hindex⟩ := List.mem_iff_getElem?.1 hentry
      refine ⟨[index], value, ?_, hvalue⟩
      rw [List.append_nil]
      exact .here hindex
  | cons first found ih =>
      obtain ⟨name, later, hname, hlater, rfl⟩ := Value.pathOf?_cons_eq_some_iff.1 hnames
      obtain ⟨r, hfound, hfollow⟩ := Option.bind_eq_some_iff.1 hreached
      obtain ⟨first', value, rest', hentry, hvalue, heq, hrest⟩ :=
        Value.mem_joinPathsOfEntries.1 hkeys
      obtain ⟨rfl, rfl⟩ := List.cons.inj heq
      obtain ⟨packing, nested, rfl⟩ := Value.isMapping_iff.1 hvalue
      obtain ⟨position, value, hplace, hmapping⟩ :=
        ih (path ++ [r.name]) (hrest.resolve_left (by simp)) hlater hfollow
      obtain ⟨index, hindex⟩ := List.mem_iff_getElem?.1 hentry
      refine ⟨index :: position, value, ?_, hmapping⟩
      have hinside : PlaceAt S model path entries (index :: position) _ :=
        .inside hindex (Schema.relationship_eq_ok_iff.2 ⟨name, hname, hfound⟩) hplace
      rwa [Model.name_of_relationship? hfound, List.append_assoc] at hinside

end Planned

/-! ## What is wrong at one place -/

section Flaws

variable [DecidableEq M] {S : Schema M} {model : M} {reflector : Reflector M}
  {joins : Option (JoinSet M)}

theorem checkScalar_eq_error_iff {key value : Value} {fault : Fault} :
    Position.checkScalar key value = .error fault ↔
      value.isScalar = false ∧ fault = .unsupported key value := by
  unfold Position.checkScalar
  cases value.isScalar <;> simp [eq_comm]

theorem exists_checkScalar_iff {key value : Value} :
    (∃ checked, Position.checkScalar key value = .ok checked) ↔ value.isScalar = true := by
  unfold Position.checkScalar
  cases value.isScalar <;> simp

theorem decode_eq_error_iff {e : EnumAttribute} {value : Value} {fault : Fault} :
    e.decode value = .error fault ↔
      (∀ stored, e.decode value ≠ .ok stored) ∧
        fault = .invalidEnumValue (.text e.model) (.text e.key) value := by
  have hfails : ∀ cause, e.decode value = .error cause →
      cause = .invalidEnumValue (.text e.model) (.text e.key) value := by
    intro cause h
    unfold EnumAttribute.decode at h
    split at h
    · cases h
    · dsimp only at h
      split at h
      · split at h
        · cases h
        · exact (Except.error.inj h).symm
      · split at h
        · cases h
        · exact (Except.error.inj h).symm
      · exact (Except.error.inj h).symm
  constructor
  · intro h
    refine ⟨fun stored hstored => ?_, hfails fault h⟩
    rw [h] at hstored
    cases hstored
  · rintro ⟨hnone, rfl⟩
    cases hdecode : e.decode value with
    | ok stored => exact absurd hdecode (hnone stored)
    | error cause => rw [hfails cause hdecode]

theorem mapM_singleton_eq_error_iff {f : Value → Except Fault Value} {value : Value}
    {fault : Fault} : [value].mapM f = .error fault ↔ f value = .error fault := by
  rw [Success.mapM_cons_eq_error_iff]
  simp [pure, Except.pure]

/-- A leaf fails at its column, at the kind of its column or at the values it asks for, all of which
are checked before any of them is decoded. -/
theorem readLeaf_eq_error_iff {key value : Value} {fault : Fault} :
    S.readLeaf reflector model key value = .error fault ↔
      S.column model key = .error fault ∨ ∃ column, S.column model key = .ok column ∧
        (reflector.kind S model column.key = .error fault ∨
          ∃ kind, reflector.kind S model column.key = .ok kind ∧
            (value.asked.mapM (Position.checkScalar key) = .error fault ∨
              (∃ checked, value.asked.mapM (Position.checkScalar key) = .ok checked) ∧
                value.asked.mapM kind.decode = .error fault)) := by
  unfold Schema.readLeaf Value.asked
  rw [Success.bind_eq_error_iff]
  refine or_congr_right (exists_congr fun column => and_congr_right fun _ => ?_)
  rw [Success.bind_eq_error_iff]
  refine or_congr_right (exists_congr fun kind => and_congr_right fun _ => ?_)
  cases value.elements? with
  | some items =>
      simp only [Option.getD_some, Success.bind_eq_error_iff, Success.map_eq_error_iff]
      refine or_congr_right ⟨?_, ?_⟩
      · rintro ⟨checked, hchecked, hdecode⟩
        obtain rfl := Position.eq_of_mapM_checkScalar hchecked
        exact ⟨⟨_, hchecked⟩, hdecode⟩
      · rintro ⟨⟨checked, hchecked⟩, hdecode⟩
        obtain rfl := Position.eq_of_mapM_checkScalar hchecked
        exact ⟨_, hchecked, hdecode⟩
  | none =>
      simp only [Option.getD_none, Success.bind_eq_error_iff, Success.map_eq_error_iff,
        mapM_singleton_eq_error_iff]
      refine or_congr_right ⟨?_, ?_⟩
      · rintro ⟨checked, hchecked, hdecode⟩
        obtain rfl := Position.eq_of_checkScalar hchecked
        exact ⟨⟨[_], Success.mapM_cons_eq_ok_iff.2 ⟨_, [], hchecked, rfl, rfl⟩⟩, hdecode⟩
      · rintro ⟨⟨checked, hchecked⟩, hdecode⟩
        obtain ⟨first, rest, hfirst, -, -⟩ := Success.mapM_cons_eq_ok_iff.1 hchecked
        obtain rfl := Position.eq_of_checkScalar hfirst
        exact ⟨_, hfirst, hdecode⟩

/-- The first of some values that is no scalar is what they are refused for. -/
theorem mapM_checkScalar_eq_error_iff {key : Value} {items : List Value} {fault : Fault} :
    items.mapM (Position.checkScalar key) = .error fault ↔
      ∃ before item after, items = before ++ item :: after ∧
        (∀ v ∈ before, v.isScalar = true) ∧ item.isScalar = false ∧
        fault = .unsupported key item := by
  simp only [Success.mapM_eq_error_iff, exists_checkScalar_iff, checkScalar_eq_error_iff]

theorem exists_mapM_checkScalar_iff {key : Value} {items : List Value} :
    (∃ checked, items.mapM (Position.checkScalar key) = .ok checked) ↔
      ∀ v ∈ items, v.isScalar = true := by
  simpa only [and_true, implies_true, exists_checkScalar_iff] using
    Success.exists_mapM_iff (f := Position.checkScalar key) (P := fun _ => True)

/-- The first of some values that cannot be decoded is what they are refused for. -/
theorem mapM_decode_eq_error_iff {kind : AttributeKind} {items : List Value} {fault : Fault} :
    items.mapM kind.decode = .error fault ↔
      ∃ e before item after, kind = .enumeration e ∧ items = before ++ item :: after ∧
        (∀ v ∈ before, ∃ stored, e.decode v = .ok stored) ∧
        (∀ stored, e.decode item ≠ .ok stored) ∧
        fault = .invalidEnumValue (.text e.model) (.text e.key) item := by
  rw [Success.mapM_eq_error_iff]
  cases kind with
  | scalar => simp [AttributeKind.decode]
  | enumeration e =>
      simp only [AttributeKind.decode, decode_eq_error_iff, AttributeKind.enumeration.injEq,
        exists_and_left, exists_eq_left']

/-- A value that is no tree is refused for what is wrong at its place. -/
theorem readLeaf_eq_error_iff_flawed {p : Place M} {name : String} {fault : Fault}
    (hkey : p.key.text? = some name) (hvalue : p.value.isMapping = false) :
    S.readLeaf reflector p.model p.key p.value = .error fault ↔
      p.Flawed S reflector joins fault := by
  simp only [readLeaf_eq_error_iff, mapM_checkScalar_eq_error_iff, exists_mapM_checkScalar_iff,
    mapM_decode_eq_error_iff]
  constructor
  · rintro (hcolumn | ⟨column, hcolumn, hkind | ⟨kind, hkind,
      ⟨before, item, after, hasked, hbefore, hitem, rfl⟩ |
      ⟨hscalar, e, before, item, after, rfl, hasked, hbefore, hitem, rfl⟩⟩⟩)
    · obtain ⟨hmissing, rfl⟩ := (Schema.column_eq_error_iff hkey).1 hcolumn
      exact .column hkey hvalue hmissing
    · exact .declaration hvalue hcolumn hkind
    · exact .unsupported hvalue hcolumn hkind hasked hbefore hitem
    · exact .undecodable hvalue hcolumn hkind hscalar hasked hbefore hitem
  · intro h
    cases h with
    | keyNotText hno =>
        rw [hkey] at hno
        cases hno
    | relationship _ htree _ | notJoined _ htree _ _ =>
        rw [hvalue] at htree
        cases htree
    | empty _ htree _ =>
        rw [htree] at hvalue
        cases hvalue
    | column hname _ hmissing => exact .inl ((Schema.column_eq_error_iff hname).2 ⟨hmissing, rfl⟩)
    | declaration _ hcolumn hkind => exact .inr ⟨_, hcolumn, .inl hkind⟩
    | unsupported _ hcolumn hkind hasked hbefore hitem =>
        exact .inr ⟨_, hcolumn, .inr ⟨_, hkind, .inl ⟨_, _, _, hasked, hbefore, hitem, rfl⟩⟩⟩
    | undecodable _ hcolumn hkind hscalar hasked hbefore hitem =>
        exact .inr ⟨_, hcolumn, .inr ⟨_, hkind, .inr
          ⟨hscalar, _, _, _, _, rfl, hasked, hbefore, hitem, rfl⟩⟩⟩

/-- A key that is no text is all that is wrong at its place. -/
theorem flawed_of_no_text {p : Place M} (hkey : p.key.text? = none) {fault : Fault} :
    p.Flawed S reflector joins fault ↔ fault = .malformedTree p.key p.value .keyNotText := by
  constructor
  · intro h
    cases h with
    | keyNotText => rfl
    | relationship hname | column hname =>
        rw [hkey] at hname
        cases hname
    | notJoined hr | empty hr => exact absurd hr (Schema.relationship_ne_ok hkey _)
    | declaration _ hcolumn | unsupported _ hcolumn | undecodable _ hcolumn =>
        exact absurd hcolumn (Schema.column_ne_ok hkey _)
  · rintro rfl
    exact .keyNotText hkey

/-- Where a nested tree has no relationship to go along, nothing else is wrong at its place. -/
theorem flawed_of_no_relationship {p : Place M} {name : String} (hkey : p.key.text? = some name)
    (hvalue : p.value.isMapping = true) (hmissing : (S.model p.model).relationship? name = none)
    {fault : Fault} :
    p.Flawed S reflector joins fault ↔ fault = .noRelationship (S.model p.model).name p.key := by
  constructor
  · intro h
    cases h with
    | keyNotText hno =>
        rw [hkey] at hno
        cases hno
    | relationship => rfl
    | notJoined hr | empty hr =>
        obtain ⟨found, hfound, hr⟩ := Schema.relationship_eq_ok_iff.1 hr
        obtain rfl := Option.some.inj (hkey.symm.trans hfound)
        rw [hmissing] at hr
        cases hr
    | column _ hleaf | declaration hleaf | unsupported hleaf | undecodable hleaf =>
        rw [hvalue] at hleaf
        cases hleaf
  · rintro rfl
    exact .relationship hkey hvalue hmissing

/-- Where a nested tree has a relationship to go along, it is refused if its path is not joined, or
else if it is empty. -/
theorem flawed_nested_iff {p : Place M} {r : Relationship M} {packing : Packing}
    {nested : List (Value × Value)} (hr : S.relationship p.model p.key = .ok r)
    (hvalue : p.value = .mapping packing nested) {fault : Fault} :
    p.Flawed S reflector joins fault ↔
      (∃ joined, joins = some joined ∧ p.path ++ [r.name] ∉ joined.paths ∧
        fault = .notJoined (p.path ++ [r.name])) ∨
      (∀ joined, joins = some joined → p.path ++ [r.name] ∈ joined.paths) ∧ nested = [] ∧
        fault = .malformedTree (.text r.name) p.value (.empty (p.path ++ [r.name])) := by
  obtain ⟨name, hkey, hfound⟩ := Schema.relationship_eq_ok_iff.1 hr
  have htree : p.value.isMapping = true := by
    rw [hvalue]
    rfl
  constructor
  · intro h
    cases h with
    | keyNotText hno =>
        rw [hkey] at hno
        cases hno
    | relationship hname _ hmissing =>
        obtain rfl := Option.some.inj (hkey.symm.trans hname)
        rw [hmissing] at hfound
        cases hfound
    | notJoined hr' _ hjoins hpath =>
        obtain rfl := Except.ok.inj (hr.symm.trans hr')
        exact .inl ⟨_, hjoins, hpath, rfl⟩
    | empty hr' hempty hjoined =>
        obtain rfl := Except.ok.inj (hr.symm.trans hr')
        exact .inr ⟨hjoined, (Value.mapping.inj (hvalue.symm.trans hempty)).2, rfl⟩
    | column _ hleaf | declaration hleaf | unsupported hleaf | undecodable hleaf =>
        rw [htree] at hleaf
        cases hleaf
  · rintro (⟨joined, hjoins, hpath, rfl⟩ | ⟨hjoined, rfl, rfl⟩)
    · exact .notJoined hr htree hjoins hpath
    · exact .empty hr hvalue hjoined

theorem flawed_joined_iff {p : Place M} {r : Relationship M} {packing : Packing}
    {nested : List (Value × Value)} (hr : S.relationship p.model p.key = .ok r)
    (hvalue : p.value = .mapping packing nested)
    (hjoined : ∀ joined, joins = some joined → p.path ++ [r.name] ∈ joined.paths) {fault : Fault} :
    p.Flawed S reflector joins fault ↔ nested = [] ∧
      fault = .malformedTree (.text r.name) p.value (.empty (p.path ++ [r.name])) := by
  rw [flawed_nested_iff hr hvalue, or_iff_right]
  · exact and_iff_right hjoined
  · rintro ⟨joined, hjoins, hpath, -⟩
    exact hpath (hjoined joined hjoins)

/-- What is wrong at a place depends on the joins only in whether the path that is asked for is
joined. -/
theorem Place.Flawed.of_joined {p : Place M} {fault : Fault} {others : Option (JoinSet M)}
    (h : p.Flawed S reflector joins fault)
    (hjoined : ∀ path, p.Asks S path → ((∃ joined, others = some joined ∧ path ∉ joined.paths) ↔
      ∃ joined, joins = some joined ∧ path ∉ joined.paths)) :
    p.Flawed S reflector others fault := by
  cases h with
  | keyNotText hkey => exact .keyNotText hkey
  | relationship hkey hvalue hmissing => exact .relationship hkey hvalue hmissing
  | notJoined hr hvalue hjoins hpath =>
      obtain ⟨joined, hothers, hmissing⟩ :=
        (hjoined _ ⟨hvalue, _, hr, rfl⟩).2 ⟨_, hjoins, hpath⟩
      exact .notJoined hr hvalue hothers hmissing
  | empty hr hvalue hall =>
      refine .empty hr hvalue fun joined hothers => ?_
      by_contra hmissing
      have hasks := (hjoined _ ⟨by rw [hvalue]; rfl, _, hr, rfl⟩).1 ⟨joined, hothers, hmissing⟩
      obtain ⟨before, hjoins, hpath⟩ := hasks
      exact hpath (hall before hjoins)
  | column hkey hvalue hmissing => exact .column hkey hvalue hmissing
  | declaration hvalue hcolumn hkind => exact .declaration hvalue hcolumn hkind
  | unsupported hvalue hcolumn hkind hasked hbefore hitem =>
      exact .unsupported hvalue hcolumn hkind hasked hbefore hitem
  | undecodable hvalue hcolumn hkind hscalar hasked hbefore hitem =>
      exact .undecodable hvalue hcolumn hkind hscalar hasked hbefore hitem

end Flaws

end RowAccess
