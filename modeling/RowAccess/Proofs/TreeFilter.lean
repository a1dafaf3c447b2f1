import RowAccess.Proofs.JoinSet
import RowAccess.Proofs.LeafMatching
import RowAccess.Restriction
/-!
# What a condition tree compiles to

A tree compiles to the conjunction of its leaves, each compared with a column of the source that
its path leads to. Whatever is asked of a filter and passes through "and" can therefore be asked of
the leaves, wherever in the tree they stand; this is how the truth of a compiled tree, the sources
it reads and the values it hands over are all found out.
-/

namespace RowAccess

/-! ## What a leaf is read as -/

namespace Position

theorem checkScalar_eq_ok_iff {key value checked : Value} :
    checkScalar key value = .ok checked ↔ checked = value ∧ value.isScalar = true := by
  unfold checkScalar
  cases value.isScalar <;> simp [eq_comm]

theorem mapM_checkScalar_eq_ok_iff {key : Value} {items checked : List Value} :
    items.mapM (checkScalar key) = .ok checked ↔
      checked = items ∧ ∀ v ∈ items, v.isScalar = true := by
  rw [Success.mapM_eq_ok_iff]
  simp only [checkScalar_eq_ok_iff]
  constructor
  · intro h
    induction h with
    | nil => simp
    | cons hfirst _ ih =>
        obtain ⟨rfl, hscalar⟩ := hfirst
        obtain ⟨rfl, hrest⟩ := ih
        exact ⟨rfl, List.forall_mem_cons.2 ⟨hscalar, hrest⟩⟩
  · rintro ⟨rfl, hscalar⟩
    exact List.forall₂_same.2 fun v hv => ⟨rfl, hscalar v hv⟩

theorem eq_of_checkScalar {key value checked : Value}
    (h : checkScalar key value = .ok checked) : checked = value :=
  (checkScalar_eq_ok_iff.1 h).1

theorem eq_of_mapM_checkScalar {key : Value} {items checked : List Value}
    (h : items.mapM (checkScalar key) = .ok checked) : checked = items :=
  (mapM_checkScalar_eq_ok_iff.1 h).1

end Position

namespace AttributeKind

/-- What a column of this kind is compared with if a condition asks for a value. -/
inductive ReadsAs (kind : AttributeKind) (value : Value) : Operand → Prop
  | one {w : Value} (hone : value.elements? = none) (hscalar : value.isScalar = true)
      (hdecode : kind.decode value = .ok w) : ReadsAs kind value (.one w)
  | many {items values : List Value} (hmany : value.elements? = some items)
      (hscalar : ∀ v ∈ items, v.isScalar = true)
      (hdecode : items.mapM kind.decode = .ok values) : ReadsAs kind value (.many values)

variable {kind : AttributeKind} {value : Value} {operand : Operand}

/-- The members of what a value is read as are the values it asks for, decoded. -/
theorem ReadsAs.mem_members_iff (h : kind.ReadsAs value operand) {w : Value} :
    w ∈ operand.members ↔ ∃ v ∈ value.asked, kind.decode v = .ok w := by
  unfold Value.asked
  cases h with
  | one hone _ hdecode =>
      rw [hone]
      simp [Operand.members, hdecode, eq_comm]
  | many hmany _ hdecode =>
      rw [hmany]
      exact Success.mem_of_mapM hdecode

theorem ReadsAs.decodes (h : kind.ReadsAs value operand) {v : Value} (hv : v ∈ value.asked) :
    ∃ w, kind.decode v = .ok w := by
  unfold Value.asked at hv
  cases h with
  | @one w hone _ hdecode =>
      rw [hone] at hv
      obtain rfl := List.mem_singleton.1 hv
      exact ⟨w, hdecode⟩
  | many hmany _ hdecode =>
      rw [hmany] at hv
      obtain ⟨w, -, hw⟩ := Success.exists_of_mapM hdecode hv
      exact ⟨w, hw⟩

end AttributeKind

namespace Schema

variable {M : Type} [DecidableEq M] (S : Schema M)

/-- Reads a leaf on a model: the column that the key names, with the decoded value or the decoded
elements of the collection. -/
def readLeaf (reflector : Reflector M) (model : M) (key value : Value) : Except Fault Leaf := do
  let column ← S.column model key
  let kind ← reflector.kind S model column.key
  match value.elements? with
  | some items =>
    let checked ← items.mapM (Position.checkScalar key)
    (checked.mapM kind.decode).map fun values => ⟨column, .many values⟩
  | none =>
    let checked ← Position.checkScalar key value
    (kind.decode checked).map fun v => ⟨column, .one v⟩

/-- What the leaf at the end of a path from a model is read as. -/
def ReadsLeaf (reflector : Reflector M) (model : M) (path : JoinPath) (key value : Value)
    (leaf : Leaf) : Prop :=
  ∃ reached, S.follow model path = some reached ∧
    S.readLeaf reflector reached key value = .ok leaf

variable {S}

/-- A leaf is read if its column is known, the kind of its column is, and the values that are asked
for can be compared with a column of this kind. -/
theorem readLeaf_eq_ok_iff {reflector : Reflector M} {model : M} {key value : Value} {leaf : Leaf} :
    S.readLeaf reflector model key value = .ok leaf ↔
      S.column model key = .ok leaf.column ∧ ∃ kind,
        reflector.kind S model leaf.column.key = .ok kind ∧ kind.ReadsAs value leaf.operand := by
  unfold readLeaf
  simp only [Success.bind_eq_ok_iff]
  constructor
  · rintro ⟨column, hcolumn, kind, hkind, hread⟩
    cases hitems : value.elements? with
    | some items =>
        rw [hitems] at hread
        obtain ⟨checked, hchecked, hdecode⟩ := Success.bind_eq_ok_iff.1 hread
        obtain ⟨rfl, hscalar⟩ := Position.mapM_checkScalar_eq_ok_iff.1 hchecked
        obtain ⟨values, hvalues, rfl⟩ := Success.map_eq_ok_iff.1 hdecode
        exact ⟨hcolumn, kind, hkind, .many hitems hscalar hvalues⟩
    | none =>
        rw [hitems] at hread
        obtain ⟨checked, hchecked, hdecode⟩ := Success.bind_eq_ok_iff.1 hread
        obtain ⟨rfl, hscalar⟩ := Position.checkScalar_eq_ok_iff.1 hchecked
        obtain ⟨w, hw, rfl⟩ := Success.map_eq_ok_iff.1 hdecode
        exact ⟨hcolumn, kind, hkind, .one hitems hscalar hw⟩
  · obtain ⟨column, operand⟩ := leaf
    rintro ⟨hcolumn, kind, hkind, hreads⟩
    refine ⟨column, hcolumn, kind, hkind, ?_⟩
    cases hreads with
    | one hone hscalar hdecode =>
        rw [hone]
        dsimp only
        rw [Success.bind_ok (Position.checkScalar_eq_ok_iff.2 ⟨rfl, hscalar⟩), hdecode]
        rfl
    | many hmany hscalar hdecode =>
        rw [hmany]
        dsimp only
        rw [Success.bind_ok (Position.mapM_checkScalar_eq_ok_iff.2 ⟨rfl, hscalar⟩), hdecode]
        rfl

theorem ReadsLeaf.unique {reflector : Reflector M} {model : M} {path : JoinPath}
    {key value : Value} {first second : Leaf}
    (hfirst : S.ReadsLeaf reflector model path key value first)
    (hsecond : S.ReadsLeaf reflector model path key value second) : first = second := by
  obtain ⟨m, hm, hreadm⟩ := hfirst
  obtain ⟨n, hn, hreadn⟩ := hsecond
  obtain rfl := Option.some.inj (hm.symm.trans hn)
  exact Except.ok.inj (hreadm.symm.trans hreadn)

end Schema

namespace Position

variable {M : Type} (S : Schema M)

/-- The position reached along the names of a path. -/
def follow (p : Position M) : JoinPath → Except Fault (Position M)
  | [] => .ok p
  | name :: rest => do
    let child ← p.descend S (.text name)
    child.follow rest

variable {S}

/-- The source that a model is read from at a path. -/
def sourceAt (p : Position M) (path : JoinPath) (reached : M) : Except Fault (Source M) :=
  match p.joins with
  | some joins => joins.sourceFor path
  | none => .ok (.own reached)

/-- Going along a relationship needs a source for its path, and nothing else. -/
theorem descend_of_relationship {p : Position M} {key : Value} {r : Relationship M}
    (hr : S.relationship p.model key = .ok r) :
    p.descend S key = (p.sourceAt (p.path ++ [r.name]) r.target).map fun source =>
      { p with model := r.target, source := source, path := p.path ++ [r.name] } := by
  unfold descend sourceAt
  rw [Success.bind_ok hr]
  cases p.joins with
  | none => rfl
  | some joins => cases joins.sourceFor (p.path ++ [r.name]) <;> rfl

theorem descend_eq_ok_iff {p child : Position M} {key : Value} :
    p.descend S key = .ok child ↔
      ∃ name r source, key.text? = some name ∧ (S.model p.model).relationship? name = some r ∧
        p.sourceAt (p.path ++ [r.name]) r.target = .ok source ∧
        child = { p with model := r.target, source := source, path := p.path ++ [r.name] } := by
  constructor
  · intro h
    obtain ⟨r, hr, -⟩ := Success.bind_eq_ok_iff.1 h
    rw [descend_of_relationship hr, Success.map_eq_ok_iff] at h
    obtain ⟨source, hsource, rfl⟩ := h
    obtain ⟨name, hname, hfound⟩ := Schema.relationship_eq_ok_iff.1 hr
    exact ⟨name, r, source, hname, hfound, hsource, rfl⟩
  · rintro ⟨name, r, source, hname, hfound, hsource, rfl⟩
    have hr := Schema.relationship_eq_ok_iff.2 ⟨name, hname, hfound⟩
    rw [descend_of_relationship hr, Success.map_eq_ok_iff]
    exact ⟨source, hsource, rfl⟩

/-- Along a relationship a position goes on unless the path is not joined. -/
theorem descend_eq_error_iff {p : Position M} {key : Value} {r : Relationship M} {fault : Fault}
    (hr : S.relationship p.model key = .ok r) :
    p.descend S key = .error fault ↔
      ∃ joined, p.joins = some joined ∧ p.path ++ [r.name] ∉ joined.paths ∧
        fault = .notJoined (p.path ++ [r.name]) := by
  rw [descend_of_relationship hr, Success.map_eq_error_iff]
  unfold sourceAt
  cases p.joins with
  | none => simp
  | some joined =>
      simp only [JoinSet.sourceFor_eq_error_iff, Option.some.injEq, exists_eq_left',
        List.append_eq_nil_iff, reduceCtorEq, and_false, not_false_eq_true, true_and, ne_eq]

/-- Going along a relationship leads to its target, and with joins along a path that is joined. -/
theorem facts_of_descend {p child : Position M} {key : Value} {r : Relationship M}
    (hr : S.relationship p.model key = .ok r) (h : p.descend S key = .ok child) :
    (∃ source, child = { p with model := r.target, source := source, path := p.path ++ [r.name] }) ∧
      ∀ joined, p.joins = some joined → p.path ++ [r.name] ∈ joined.paths := by
  constructor
  · rw [descend_of_relationship hr, Success.map_eq_ok_iff] at h
    obtain ⟨source, -, rfl⟩ := h
    exact ⟨source, rfl⟩
  · intro joined hjoins
    by_contra hpath
    rw [(descend_eq_error_iff hr).2 ⟨joined, hjoins, hpath, rfl⟩] at h
    cases h

theorem descend_text {p child : Position M} {key : Value} {name : String}
    (hname : key.text? = some name) :
    p.descend S (.text name) = .ok child ↔ p.descend S key = .ok child := by
  have htext : (Value.text name).text? = some name := rfl
  simp only [descend_eq_ok_iff, hname, htext]

/-- Along a path a position keeps its joins and its reflector, and its source is the one that is
joined there. -/
theorem follow_facts {p q : Position M} {joins : JoinSet M} {path : JoinPath}
    (hjoins : p.joins = some joins) (hsource : joins.sourceFor p.path = .ok p.source)
    (h : p.follow S path = .ok q) :
    S.follow p.model path = some q.model ∧ joins.sourceFor (p.path ++ path) = .ok q.source ∧
      q.reflector = p.reflector := by
  induction path generalizing p with
  | nil =>
      cases h
      simpa [Schema.follow] using hsource
  | cons name path ih =>
      obtain ⟨child, hchild, hq⟩ := Success.bind_eq_ok_iff.1 h
      obtain ⟨text, r, source, htext, hr, hfound, heq⟩ := descend_eq_ok_iff.1 hchild
      obtain rfl : name = text := Option.some.inj htext
      have hrname := Model.name_of_relationship? hr
      have hfound' : joins.sourceFor child.path = .ok child.source := by
        rw [sourceAt, hjoins] at hfound
        rw [heq]
        exact hfound
      have hjoins' : child.joins = some joins := by
        rw [heq]
        exact hjoins
      obtain ⟨hmodel, hsource', hreflector⟩ := ih hjoins' hfound' hq
      rw [heq] at hmodel hsource' hreflector
      refine ⟨?_, ?_, hreflector⟩
      · simpa [Schema.follow, hr] using hmodel
      · simpa [hrname] using hsource'

/-! ## Leaves -/

theorem all_iff {P : Filter M → Prop}
    (hboth : ∀ left right, P (.both left right) ↔ P left ∧ P right)
    (first : Filter M) (rest : List (Filter M)) :
    P (Filter.all first rest) ↔ ∀ f ∈ first :: rest, P f := by
  unfold Filter.all
  induction rest generalizing first with
  | nil => simp
  | cons second rest ih =>
      rw [List.foldl_cons, ih]
      simp [hboth, and_assoc]

theorem conjunction_iff {P : Filter M → Prop}
    (hboth : ∀ left right, P (.both left right) ↔ P left ∧ P right) {p : Position M}
    {tree : Value} {filters : List (Filter M)} {filter : Filter M}
    (h : p.conjunction tree filters = .ok filter) : P filter ↔ ∀ f ∈ filters, P f := by
  cases filters with
  | nil => simp [conjunction] at h
  | cons first rest =>
      cases h
      exact all_iff hboth first rest

variable [DecidableEq M]

theorem leaf_eq (p : Position M) (comparator : Comparator) (key value : Value) :
    p.leaf S comparator key value =
      (S.readLeaf p.reflector p.model key value).map fun leaf =>
        leaf.filter comparator p.source := by
  unfold leaf Schema.readLeaf column
  cases S.column p.model key with
  | error fault => rfl
  | ok c =>
      simp only [Except.map, bind, Except.bind]
      cases p.reflector.kind S p.model c.key with
      | error fault => rfl
      | ok kind =>
          dsimp only
          cases value.elements? with
          | some items =>
              dsimp only
              cases items.mapM (checkScalar key) with
              | error fault => rfl
              | ok checked =>
                  dsimp only
                  cases checked.mapM kind.decode <;> rfl
          | none =>
              dsimp only
              cases checkScalar key value with
              | error fault => rfl
              | ok checked =>
                  dsimp only
                  cases kind.decode checked <;> rfl

/-! ## One key of a tree -/

theorem comparison_of_no_text (comparator : Comparator) (p : Position M) {key : Value}
    (hkey : key.text? = none) (value : Value) :
    comparison S comparator p key value = .error (.malformedTree key value .keyNotText) := by
  cases value with
  | mapping packing entries => rw [comparison, hkey]
  | _ =>
      rw [comparison, hkey]
      simp

theorem comparison_leaf (comparator : Comparator) (p : Position M) {key value : Value}
    {name : String} (hkey : key.text? = some name) (hvalue : value.isMapping = false) :
    comparison S comparator p key value =
      (S.readLeaf p.reflector p.model key value).map fun leaf =>
        leaf.filter comparator p.source := by
  rw [← leaf_eq]
  cases value with
  | mapping packing entries => cases hvalue
  | _ =>
      rw [comparison, hkey]
      simp

theorem comparison_nested (comparator : Comparator) (p : Position M) {key : Value}
    {name : String} (hkey : key.text? = some name) (packing : Packing)
    (entries : List (Value × Value)) :
    comparison S comparator p key (.mapping packing entries) =
      p.descend S key >>= fun child => comparisons S comparator child entries >>=
        child.conjunction (.mapping packing entries) := by
  rw [comparison, hkey]

theorem comparisons_cons (comparator : Comparator) (p : Position M) (key value : Value)
    (rest : List (Value × Value)) :
    comparisons S comparator p ((key, value) :: rest) =
      comparison S comparator p key value >>= fun filter =>
        comparisons S comparator p rest >>= fun filters => .ok (filter :: filters) := by
  rw [comparisons]

theorem comparison_leaf_eq_ok_iff {comparator : Comparator} {p : Position M} {key value : Value}
    {filter : Filter M} (hvalue : value.isMapping = false) :
    comparison S comparator p key value = .ok filter ↔
      ∃ leaf, S.readLeaf p.reflector p.model key value = .ok leaf ∧
        filter = leaf.filter comparator p.source := by
  cases hkey : key.text? with
  | none =>
      rw [comparison_of_no_text comparator p hkey]
      refine iff_of_false (by simp) ?_
      rintro ⟨leaf, hleaf, -⟩
      obtain ⟨column, hcolumn, -⟩ := Success.bind_eq_ok_iff.1 hleaf
      exact absurd hcolumn (Schema.column_ne_ok hkey column)
  | some name =>
      rw [comparison_leaf comparator p hkey hvalue, Success.map_eq_ok_iff]
      simp only [eq_comm]

theorem comparison_nested_eq_ok_iff {comparator : Comparator} {p : Position M} {key : Value}
    {packing : Packing} {entries : List (Value × Value)} {filter : Filter M} :
    comparison S comparator p key (.mapping packing entries) = .ok filter ↔
      ∃ child filters, p.descend S key = .ok child ∧
        comparisons S comparator child entries = .ok filters ∧
        child.conjunction (.mapping packing entries) filters = .ok filter := by
  cases hkey : key.text? with
  | none =>
      rw [comparison_of_no_text comparator p hkey]
      refine iff_of_false (by simp) ?_
      rintro ⟨child, -, hchild, -⟩
      obtain ⟨name, -, -, hname, -⟩ := descend_eq_ok_iff.1 hchild
      rw [hkey] at hname
      cases hname
  | some name =>
      simp only [comparison_nested comparator p hkey, Success.bind_eq_ok_iff, exists_and_left]

theorem comparisons_cons_eq_ok_iff {comparator : Comparator} {p : Position M} {key value : Value}
    {rest : List (Value × Value)} {filters : List (Filter M)} :
    comparisons S comparator p ((key, value) :: rest) = .ok filters ↔
      ∃ filter others, comparison S comparator p key value = .ok filter ∧
        comparisons S comparator p rest = .ok others ∧ filters = filter :: others := by
  simp only [comparisons_cons, Success.bind_eq_ok_iff, Except.ok.injEq, exists_and_left,
    eq_comm (a := filters)]

theorem comparisons_eq_mapM {comparator : Comparator} (p : Position M)
    (entries : List (Value × Value)) : comparisons S comparator p entries =
      entries.mapM fun entry => comparison S comparator p entry.1 entry.2 := by
  induction entries with
  | nil => rfl
  | cons entry entries ih =>
      rw [comparisons, ih, List.mapM_cons]
      rfl

/-- The comparisons of a tree with entries can be put together. -/
theorem exists_conjunction_cons {comparator : Comparator} {p q : Position M} {tree : Value}
    {entry : Value × Value} {rest : List (Value × Value)} {filters : List (Filter M)}
    (h : comparisons S comparator p (entry :: rest) = .ok filters) :
    ∃ filter, q.conjunction tree filters = .ok filter := by
  obtain ⟨first, others, -, -, rfl⟩ := comparisons_cons_eq_ok_iff.1 h
  exact ⟨_, rfl⟩

/-! ## Trees and their leaves -/

/-- Every leaf of a tree compiles, and what it compiles to has a property. -/
def Leaves (S : Schema M) (p : Position M) (comparator : Comparator) (tree : Value)
    (P : Filter M → Prop) : Prop :=
  ∀ path key value, tree.LeafAt path key value →
    ∃ q filter, p.follow S path = .ok q ∧ q.leaf S comparator key value = .ok filter ∧ P filter

variable {p : Position M} {comparator : Comparator} {P : Filter M → Prop}

theorem leaves_nil {packing : Packing} : p.Leaves S comparator (.mapping packing []) P := by
  intro path key value hleaf
  cases path with
  | nil => simp [Value.leafAt_nil] at hleaf
  | cons name path => simp [Value.leafAt_cons] at hleaf

theorem leaves_cons {packing : Packing} {entry : Value × Value} {entries : List (Value × Value)} :
    p.Leaves S comparator (.mapping packing (entry :: entries)) P ↔
      p.Leaves S comparator (.plain [entry]) P ∧
        p.Leaves S comparator (.mapping packing entries) P := by
  have hsplit : ∀ path key value, (Value.mapping packing (entry :: entries)).LeafAt path key value ↔
      (Value.plain [entry]).LeafAt path key value ∨
        (Value.mapping packing entries).LeafAt path key value := by
    intro path key value
    cases path with
    | nil => simp [Value.leafAt_nil, or_and_right]
    | cons name path =>
        simp only [Value.leafAt_cons, List.mem_cons, List.not_mem_nil, or_false, or_and_right,
          exists_or]
  unfold Leaves
  simp only [hsplit, or_imp, forall_and]

theorem leaves_leaf {key value : Value} {filter : Filter M} (hvalue : value.isMapping = false)
    (hfilter : p.leaf S comparator key value = .ok filter) :
    p.Leaves S comparator (.plain [(key, value)]) P ↔ P filter := by
  constructor
  · intro h
    obtain ⟨q, found, hq, hfound, hP⟩ :=
      h [] key value ((Value.leafAt_single hvalue).2 ⟨rfl, rfl, rfl⟩)
    cases hq
    obtain rfl := Except.ok.inj (hfilter.symm.trans hfound)
    exact hP
  · intro hP path key' value' hleaf
    obtain ⟨rfl, rfl, rfl⟩ := (Value.leafAt_single hvalue).1 hleaf
    exact ⟨p, filter, rfl, hfilter, hP⟩

theorem leaves_tree {key tree : Value} {child : Position M} (htree : tree.isMapping = true)
    (hchild : p.descend S key = .ok child) :
    p.Leaves S comparator (.plain [(key, tree)]) P ↔ child.Leaves S comparator tree P := by
  obtain ⟨name, -, -, hname, -, -, -⟩ := descend_eq_ok_iff.1 hchild
  have htext := (descend_text hname).2 hchild
  have hstep : ∀ path, p.follow S (name :: path) = child.follow S path := by
    intro path
    rw [follow, Success.bind_ok htext]
  constructor
  · intro h path key' value' hleaf
    have hwhole : (Value.plain [(key, tree)]).LeafAt (name :: path) key' value' :=
      (Value.leafAt_nested htree).2 ⟨name, path, rfl, hname, hleaf⟩
    obtain ⟨q, filter, hq, hrest⟩ := h _ _ _ hwhole
    exact ⟨q, filter, hstep path ▸ hq, hrest⟩
  · intro h path key' value' hleaf
    obtain ⟨outer, path, rfl, houter, hrest⟩ := (Value.leafAt_nested htree).1 hleaf
    obtain rfl := Option.some.inj (hname.symm.trans houter)
    obtain ⟨q, filter, hq, hfilter⟩ := h _ _ _ hrest
    exact ⟨q, filter, (hstep path).trans hq, hfilter⟩

theorem comparisons_iff (hboth : ∀ left right, P (.both left right) ↔ P left ∧ P right)
    (entries : List (Value × Value)) (packing : Packing) (p : Position M)
    (filters : List (Filter M)) (h : comparisons S comparator p entries = .ok filters) :
    (∀ f ∈ filters, P f) ↔ p.Leaves S comparator (.mapping packing entries) P := by
  induction entries using Value.entries_induction generalizing packing p filters with
  | nil =>
      rw [comparisons] at h
      cases h
      simp [leaves_nil]
  | leaf key value rest hvalue ih =>
      obtain ⟨filter, others, hfilter, hothers, rfl⟩ := comparisons_cons_eq_ok_iff.1 h
      have hleaf : p.leaf S comparator key value = .ok filter := by
        obtain ⟨leaf, hleaf, rfl⟩ := (comparison_leaf_eq_ok_iff hvalue).1 hfilter
        rw [leaf_eq, hleaf]
        rfl
      rw [List.forall_mem_cons, leaves_cons, leaves_leaf hvalue hleaf, ih packing p others hothers]
  | nested key packing' entries rest ihEntries ihRest =>
      obtain ⟨filter, others, hfilter, hothers, rfl⟩ := comparisons_cons_eq_ok_iff.1 h
      obtain ⟨child, inner, hchild, hinner, hall⟩ := comparison_nested_eq_ok_iff.1 hfilter
      rw [List.forall_mem_cons, leaves_cons, leaves_tree rfl hchild, conjunction_iff hboth hall,
        ihEntries packing' child inner hinner, ihRest packing p others hothers]

end Position

/-! ## Rules -/

namespace Rule

variable {M : Type} [DecidableEq M] {S : Schema M}

/-- Every leaf of a rule is read, and what it is read as has a property that may depend on the path
to it. -/
def AllLeaves (S : Schema M) (reflector : Reflector M) (model : M) (rule : Rule)
    (Q : JoinPath → Leaf → Prop) : Prop :=
  ∀ path key value, rule.conditions.LeafAt path key value →
    ∃ leaf, S.ReadsLeaf reflector model path key value leaf ∧ Q path leaf

variable {reflector : Reflector M} {model : M} {joins : Option (JoinSet M)} {rule : Rule}

theorem AllLeaves.and {Q R : JoinPath → Leaf → Prop} (hQ : rule.AllLeaves S reflector model Q)
    (hR : rule.AllLeaves S reflector model R) :
    rule.AllLeaves S reflector model fun path leaf => Q path leaf ∧ R path leaf := by
  intro path key value hleaf
  obtain ⟨leaf, hreads, hleafQ⟩ := hQ path key value hleaf
  obtain ⟨leaf', hreads', hleafR⟩ := hR path key value hleaf
  obtain rfl := hreads.unique hreads'
  exact ⟨leaf, hreads, hleafQ, hleafR⟩

theorem AllLeaves.imp {Q R : JoinPath → Leaf → Prop} (hQ : rule.AllLeaves S reflector model Q)
    (h : ∀ path leaf, Q path leaf → R path leaf) : rule.AllLeaves S reflector model R := by
  intro path key value hleaf
  obtain ⟨leaf, hreads, hleafQ⟩ := hQ path key value hleaf
  exact ⟨leaf, hreads, h path leaf hleafQ⟩

theorem allLeaves_congr {Q R : JoinPath → Leaf → Prop}
    (h : rule.AllLeaves S reflector model fun path leaf => (Q path leaf ↔ R path leaf)) :
    rule.AllLeaves S reflector model Q ↔ rule.AllLeaves S reflector model R :=
  ⟨fun hQ => (h.and hQ).imp fun _ _ hleaf => hleaf.1.1 hleaf.2,
    fun hR => (h.and hR).imp fun _ _ hleaf => hleaf.1.2 hleaf.2⟩

theorem conditions_of_filter?_eq_none
    (h : rule.filter? S model joins reflector = .ok none) :
    ∃ packing, rule.conditions = .mapping packing [] := by
  unfold filter? at h
  split at h
  · rename_i packing entries hconditions
    split at h
    · rename_i hempty
      rw [List.isEmpty_iff.1 hempty] at hconditions
      exact ⟨packing, hconditions⟩
    · obtain ⟨filter, -, hfilter⟩ := Success.map_eq_ok_iff.1 h
      cases hfilter
  · cases h

theorem filter?_eq_none (h : rule.filter? S model joins reflector = .ok none) :
    rule.unconditional = true := by
  obtain ⟨packing, hconditions⟩ := conditions_of_filter?_eq_none h
  simp [unconditional, hconditions, Value.truthy]

theorem filter?_eq_some {filter : Filter M}
    (h : rule.filter? S model joins reflector = .ok (some filter)) :
    rule.unconditional = false ∧ ∃ packing entries filters,
      rule.conditions = .mapping packing entries ∧
      Position.comparisons S rule.comparator (.root model joins reflector) entries = .ok filters ∧
      (Position.root model joins reflector).conjunction (.mapping packing entries) filters =
        .ok filter := by
  unfold filter? at h
  split at h
  · rename_i packing entries hconditions
    split at h
    · cases h
    · rename_i hentries
      obtain ⟨found, hnode, hfilter⟩ := Success.map_eq_ok_iff.1 h
      cases hfilter
      obtain ⟨filters, hfilters, hall⟩ := Success.bind_eq_ok_iff.1 hnode
      refine ⟨?_, packing, entries, filters, hconditions, hfilters, hall⟩
      simpa [unconditional, hconditions, Value.truthy] using hentries
  · cases h

/-- What passes through "and" holds of a rule's filter if it holds of what the rule's leaves are
compiled to, each for the source joined along its path. -/
theorem filter?_iff {joins : JoinSet M} {P : Filter M → Prop} {filter : Filter M}
    (hboth : ∀ left right, P (.both left right) ↔ P left ∧ P right) (hmodel : joins.model = model)
    (h : rule.filter? S model (some joins) reflector = .ok (some filter)) :
    P filter ↔ rule.AllLeaves S reflector model fun path leaf =>
      ∃ source, joins.sourceFor path = .ok source ∧ P (leaf.filter rule.comparator source) := by
  obtain ⟨-, packing, entries, filters, hconditions, hfilters, hall⟩ := filter?_eq_some h
  rw [Position.conjunction_iff hboth hall,
    Position.comparisons_iff hboth entries packing _ filters hfilters]
  have hroot : joins.sourceFor [] = .ok (.own model) := by
    rw [← hmodel]
    rfl
  have hcompiles : (Position.root model (some joins) reflector).Leaves S rule.comparator
      (.mapping packing entries) fun _ => True :=
    (Position.comparisons_iff (by simp) entries packing _ filters hfilters).1 (by simp)
  have hread : ∀ {path key value q found},
      (Position.root model (some joins) reflector).follow S path = .ok q →
        q.leaf S rule.comparator key value = .ok found →
        ∃ leaf, S.ReadsLeaf reflector model path key value leaf ∧
          joins.sourceFor path = .ok q.source ∧ found = leaf.filter rule.comparator q.source := by
    intro path key value q found hq hfound
    obtain ⟨hfollow, hsource, hreflector⟩ := Position.follow_facts rfl hroot hq
    rw [Position.leaf_eq, Success.map_eq_ok_iff] at hfound
    obtain ⟨leaf, hleaf, rfl⟩ := hfound
    rw [hreflector] at hleaf
    exact ⟨leaf, ⟨q.model, hfollow, hleaf⟩, hsource, rfl⟩
  unfold AllLeaves
  rw [hconditions]
  constructor
  · intro hleaves path key value hleaf
    obtain ⟨q, found, hq, hfound, hP⟩ := hleaves path key value hleaf
    obtain ⟨leaf, hreads, hsource, rfl⟩ := hread hq hfound
    exact ⟨leaf, hreads, q.source, hsource, hP⟩
  · intro hleaves path key value hleaf
    obtain ⟨leaf, hreads, source, hsource, hP⟩ := hleaves path key value hleaf
    obtain ⟨q, found, hq, hfound, -⟩ := hcompiles path key value hleaf
    obtain ⟨leaf', hreads', hsource', rfl⟩ := hread hq hfound
    obtain rfl := hreads.unique hreads'
    obtain rfl := Except.ok.inj (hsource.symm.trans hsource')
    exact ⟨q, _, hq, hfound, hP⟩

end Rule

end RowAccess
