import RowAccess.Proofs.FirstFault
import RowAccess.Proofs.LeafTruth
import RowAccess.Proofs.RuleFold
import RowAccess.Sample.Rows
/-!
# Allowing and denying by one tree

The comparisons of allow rules and those of deny rules read a condition tree alike, leaf by leaf,
and come to opposite ends: the one keeps what every leaf matches, the other what none does. Neither
depends on how the members of a leaf are packed, ordered or repeated, as long as every member is
compared as it would be by itself.
-/

namespace RowAccess

/-! ## What a leaf asks for -/

/-- Two trees ask for the same values under the same keys, however these are packed. -/
def Value.AskSame (tree other : Value) : Prop :=
  ∀ path key,
    (∀ value, tree.LeafAt path key value →
      ∃ value', other.LeafAt path key value' ∧ ∀ v, v ∈ value.asked ↔ v ∈ value'.asked) ∧
    ∀ value', other.LeafAt path key value' →
      ∃ value, tree.LeafAt path key value ∧ ∀ v, v ∈ value.asked ↔ v ∈ value'.asked

namespace Schema

variable {M : Type} [DecidableEq M] {S : Schema M} {reflector : Reflector M} {model : M}
  {key value value' : Value} {leaf leaf' : Leaf}

/-- The members of a leaf are the values it asks for, decoded. -/
theorem members_of_readLeaf (h : S.readLeaf reflector model key value = .ok leaf) :
    ∃ kind, S.column model key = .ok leaf.column ∧
      reflector.kind S model leaf.column.key = .ok kind ∧
      ∀ w, w ∈ leaf.operand.members ↔ ∃ v ∈ value.asked, kind.decode v = .ok w := by
  obtain ⟨hcolumn, kind, hkind, hreads⟩ := readLeaf_eq_ok_iff.1 h
  exact ⟨kind, hcolumn, hkind, fun w => hreads.mem_members_iff⟩

/-- Leaves that ask for the same values have the same members. -/
theorem sameMembers_of_asked (h : S.readLeaf reflector model key value = .ok leaf)
    (h' : S.readLeaf reflector model key value' = .ok leaf')
    (hasked : ∀ v, v ∈ value.asked ↔ v ∈ value'.asked) : leaf.SameMembers leaf' := by
  obtain ⟨kind, hcolumn, hkind, hmembers⟩ := members_of_readLeaf h
  obtain ⟨kind', hcolumn', hkind', hmembers'⟩ := members_of_readLeaf h'
  have hsame : leaf.column = leaf'.column := Except.ok.inj (hcolumn.symm.trans hcolumn')
  rw [← hsame] at hkind'
  obtain rfl := Except.ok.inj (hkind.symm.trans hkind')
  refine ⟨hsame, fun w => ?_⟩
  rw [hmembers, hmembers']
  simp only [hasked]

end Schema

namespace Position

variable {M : Type} {S : Schema M}

variable [DecidableEq M]

/-! ## Whatever the comparator -/

/-- A tree that compiles with one comparator compiles with every other: what is wrong with a tree is
said without regard to the comparator. -/
theorem exists_node {p : Position M} {comparator : Comparator} (other : Comparator)
    {packing : Packing} {entries : List (Value × Value)} {filter : Filter M}
    (h : p.node S comparator packing entries = .ok filter) :
    ∃ filter', p.node S other packing entries = .ok filter' := by
  obtain ⟨filters, hfilters, hfilter⟩ := Success.bind_eq_ok_iff.1 h
  have hsound := (comparisons_finds comparator entries p).none_of_ok filters hfilters
  obtain ⟨filters', hfilters'⟩ := (comparisons_finds other entries p).ok_iff.2 hsound
  cases entries with
  | nil =>
      rw [comparisons] at hfilters
      cases hfilters
      cases hfilter
  | cons first rest =>
      obtain ⟨filter', hfilter'⟩ := exists_conjunction_cons hfilters'
      exact ⟨filter', by rw [node, Success.bind_ok hfilters', hfilter']⟩

/-! ## Leaf by leaf -/

/-- What a leaf at the end of a path is read as, and the source of its column. -/
def ReadsAt (S : Schema M) (p : Position M) (path : JoinPath) (key value : Value) (leaf : Leaf)
    (source : Source M) : Prop :=
  ∃ q, p.follow S path = .ok q ∧ S.readLeaf q.reflector q.model key value = .ok leaf ∧
    q.source = source

/-- A tree has a leaf, of the column of a source. -/
def Reads (S : Schema M) (p : Position M) (tree : Value) (leaf : Leaf) (source : Source M) : Prop :=
  ∃ path key value, tree.LeafAt path key value ∧ p.ReadsAt S path key value leaf source

/-- Every leaf of a tree, of the column of its source, has a property. -/
def EachLeaf (S : Schema M) (p : Position M) (tree : Value) (Q : Leaf → Source M → Prop) : Prop :=
  ∀ leaf source, p.Reads S tree leaf source → Q leaf source

/-- The leaves of two trees are of the same columns and have the same members. -/
structure SameLeaves (S : Schema M) (p : Position M) (tree other : Value) : Prop where
  left : p.EachLeaf S tree fun leaf source =>
    ∃ leaf', p.Reads S other leaf' source ∧ leaf.SameMembers leaf'
  right : p.EachLeaf S other fun leaf' source =>
    ∃ leaf, p.Reads S tree leaf source ∧ leaf.SameMembers leaf'

variable {p : Position M} {comparator : Comparator} {packing : Packing}
  {entries : List (Value × Value)} {filter : Filter M} {P : Filter M → Prop}

theorem leaves_of_node (hboth : ∀ left right, P (.both left right) ↔ P left ∧ P right)
    (h : p.node S comparator packing entries = .ok filter) :
    P filter ↔ p.Leaves S comparator (.mapping packing entries) P := by
  obtain ⟨filters, hfilters, hfilter⟩ := Success.bind_eq_ok_iff.1 h
  rw [conjunction_iff hboth hfilter, comparisons_iff hboth entries packing p filters hfilters]

/-- Every leaf of a tree that compiles is read. -/
theorem exists_readsAt (h : p.node S comparator packing entries = .ok filter) {path : JoinPath}
    {key value : Value} (hleaf : (Value.mapping packing entries).LeafAt path key value) :
    ∃ leaf source, p.ReadsAt S path key value leaf source := by
  obtain ⟨q, found, hq, hfound, -⟩ := (leaves_of_node (P := fun _ => True) (by simp) h).1 trivial
    path key value hleaf
  rw [leaf_eq, Success.map_eq_ok_iff] at hfound
  obtain ⟨leaf, hread, -⟩ := hfound
  exact ⟨leaf, q.source, q, hq, hread, rfl⟩

/-- What passes through "and" holds of a compiled tree if it holds of what its leaves become. -/
theorem node_iff (hboth : ∀ left right, P (.both left right) ↔ P left ∧ P right)
    (h : p.node S comparator packing entries = .ok filter) :
    P filter ↔ p.EachLeaf S (.mapping packing entries) fun leaf source =>
      P (leaf.filter comparator source) := by
  rw [leaves_of_node hboth h]
  constructor
  · rintro hleaves leaf source ⟨path, key, value, hleaf, q, hq, hread, rfl⟩
    obtain ⟨q', found, hq', hfound, hP⟩ := hleaves path key value hleaf
    obtain rfl := Except.ok.inj (hq.symm.trans hq')
    rw [leaf_eq, hread] at hfound
    obtain rfl := Except.ok.inj hfound
    exact hP
  · intro heach path key value hleaf
    obtain ⟨leaf, source, q, hq, hread, rfl⟩ := exists_readsAt h hleaf
    refine ⟨q, leaf.filter comparator q.source, hq, ?_, ?_⟩
    · rw [leaf_eq, hread]
      rfl
    · exact heach leaf q.source ⟨path, key, value, hleaf, q, hq, hread, rfl⟩

theorem eachLeaf_congr {tree : Value} {Q R : Leaf → Source M → Prop}
    (h : ∀ leaf source, p.Reads S tree leaf source → (Q leaf source ↔ R leaf source)) :
    p.EachLeaf S tree Q ↔ p.EachLeaf S tree R := by
  constructor
  · intro hQ leaf source hreads
    exact (h leaf source hreads).1 (hQ leaf source hreads)
  · intro hR leaf source hreads
    exact (h leaf source hreads).2 (hR leaf source hreads)

/-- What leaves with the same members have in common, the leaves of two trees have in common. -/
theorem SameLeaves.eachLeaf_iff {tree other : Value} (h : p.SameLeaves S tree other)
    {Q : Leaf → Source M → Prop}
    (hQ : p.EachLeaf S tree fun leaf source => ∀ leaf', leaf.SameMembers leaf' →
      (Q leaf source ↔ Q leaf' source)) :
    p.EachLeaf S tree Q ↔ p.EachLeaf S other Q := by
  constructor
  · intro htree leaf' source hreads
    obtain ⟨leaf, hleaf, hsame⟩ := h.right leaf' source hreads
    exact (hQ leaf source hleaf leaf' hsame).1 (htree leaf source hleaf)
  · intro hother leaf source hreads
    obtain ⟨leaf', hleaf', hsame⟩ := h.left leaf source hreads
    exact (hQ leaf source hreads leaf' hsame).2 (hother leaf' source hleaf')

/-- A tree of one leaf has that leaf and no other. -/
theorem eachLeaf_single {key value : Value} {leaf : Leaf} (hvalue : value.isMapping = false)
    (hread : S.readLeaf p.reflector p.model key value = .ok leaf) {Q : Leaf → Source M → Prop} :
    p.EachLeaf S (.mapping packing [(key, value)]) Q ↔ Q leaf p.source := by
  constructor
  · intro heach
    exact heach leaf p.source
      ⟨[], key, value, (Value.leafAt_single hvalue).2 ⟨rfl, rfl, rfl⟩, p, rfl, hread, rfl⟩
  · rintro hQ found source ⟨path, key', value', hleaf, q, hq, hfound, rfl⟩
    obtain ⟨rfl, rfl, rfl⟩ := (Value.leafAt_single hvalue).1 hleaf
    cases hq
    obtain rfl := Except.ok.inj (hread.symm.trans hfound)
    exact hQ

/-- A condition can be exchanged for one that asks for the same values. -/
theorem askSame_single {packing' : Packing} {key value value' : Value}
    (hvalue : value.isMapping = false) (hvalue' : value'.isMapping = false)
    (hasked : ∀ v, v ∈ value.asked ↔ v ∈ value'.asked) :
    (Value.mapping packing [(key, value)]).AskSame (.mapping packing' [(key, value')]) := by
  intro path key'
  simp only [Value.leafAt_single hvalue, Value.leafAt_single hvalue']
  constructor
  · rintro found ⟨rfl, rfl, rfl⟩
    exact ⟨value', ⟨rfl, rfl, rfl⟩, hasked⟩
  · rintro found ⟨rfl, rfl, rfl⟩
    exact ⟨value, ⟨rfl, rfl, rfl⟩, hasked⟩

/-- Trees that ask for the same values have the same leaves. -/
theorem sameLeaves_of_askSame {packing' : Packing} {entries' : List (Value × Value)}
    {comparator' : Comparator} {filter' : Filter M}
    (h : p.node S comparator packing entries = .ok filter)
    (h' : p.node S comparator' packing' entries' = .ok filter')
    (hask : (Value.mapping packing entries).AskSame (.mapping packing' entries')) :
    p.SameLeaves S (.mapping packing entries) (.mapping packing' entries') where
  left := by
    rintro leaf source ⟨path, key, value, hleaf, q, hq, hread, rfl⟩
    obtain ⟨value', hleaf', hasked⟩ := (hask path key).1 value hleaf
    obtain ⟨leaf', source', q', hq', hread', hsource'⟩ := exists_readsAt h' hleaf'
    obtain rfl := Except.ok.inj (hq.symm.trans hq')
    exact ⟨leaf', ⟨path, key, value', hleaf', q, hq, hread', rfl⟩,
      Schema.sameMembers_of_asked hread hread' hasked⟩
  right := by
    rintro leaf' source ⟨path, key, value', hleaf', q, hq, hread', rfl⟩
    obtain ⟨value, hleaf, hasked⟩ := (hask path key).2 value' hleaf'
    obtain ⟨leaf, source', q', hq', hread, hsource'⟩ := exists_readsAt h hleaf
    obtain rfl := Except.ok.inj (hq.symm.trans hq')
    exact ⟨leaf, ⟨path, key, value, hleaf, q, hq, hread, rfl⟩,
      Schema.sameMembers_of_asked hread hread' hasked⟩

/-! ## Opposite comparisons -/

theorem checkValues_node (h : p.node S comparator packing entries = .ok filter) :
    filter.checkValues = .ok () ↔
      p.EachLeaf S (.mapping packing entries) fun leaf _ => leaf.Accepted := by
  rw [node_iff (P := fun f => f.checkValues = .ok ()) Filter.checkValues_both h]
  exact eachLeaf_congr fun leaf source _ => leaf.checkValues_filter comparator source

theorem truth_node_eq_true (h : p.node S comparator packing entries = .ok filter)
    (a : Assignment M) :
    filter.truth a = some true ↔ p.EachLeaf S (.mapping packing entries) fun leaf source =>
      (leaf.filter comparator source).truth a = some true :=
  node_iff (P := fun f => f.truth a = some true) (fun _ _ => Truth.both_eq_true) h

theorem truth_node_ne_false (h : p.node S comparator packing entries = .ok filter)
    (a : Assignment M) :
    filter.truth a ≠ some false ↔ p.EachLeaf S (.mapping packing entries) fun leaf source =>
      (leaf.filter comparator source).truth a ≠ some false :=
  node_iff (P := fun f => f.truth a ≠ some false) (fun _ _ => Truth.both_ne_false) h

/-- To allow by a tree is true of what every leaf matches. -/
theorem allow_eq_true_iff (h : p.node S .equal packing entries = .ok filter) (a : Assignment M) :
    filter.truth a = some true ↔ p.EachLeaf S (.mapping packing entries) fun leaf source =>
      leaf.MatchesRow (a source) := by
  rw [truth_node_eq_true h]
  refine eachLeaf_congr fun leaf source _ => ?_
  rw [← Leaf.holds_equal, Filter.holds, beq_iff_eq]

section Deny

variable (h : p.node S .distinct packing entries = .ok filter)
  (haccepted : p.EachLeaf S (.mapping packing entries) fun leaf _ => leaf.Accepted)
  (hdefined : p.EachLeaf S (.mapping packing entries) fun leaf _ => leaf.Defined)
  (a : Assignment M)

include h haccepted hdefined

/-- To deny by a tree is true of what no leaf matches. -/
theorem deny_eq_true_iff :
    filter.truth a = some true ↔ p.EachLeaf S (.mapping packing entries) fun leaf source =>
      ¬ leaf.MatchesRow (a source) := by
  rw [truth_node_eq_true h]
  refine eachLeaf_congr fun leaf source hreads => ?_
  rw [← Leaf.holds_distinct (haccepted leaf source hreads) (hdefined leaf source hreads),
    Filter.holds, beq_iff_eq]

/-- To deny by a tree is false of what some leaf matches. -/
theorem deny_eq_false_iff :
    filter.truth a = some false ↔ ∃ leaf source,
      p.Reads S (.mapping packing entries) leaf source ∧ leaf.MatchesRow (a source) := by
  rw [← not_iff_not, ← Ne, truth_node_ne_false h]
  simp only [not_exists, not_and]
  refine eachLeaf_congr fun leaf source hreads => not_congr ?_
  exact Leaf.truth_distinct_eq_false (haccepted leaf source hreads) (hdefined leaf source hreads)

end Deny

/-! ## Trees with the same leaves -/

section SameLeaves

variable {packing' : Packing} {entries' : List (Value × Value)} {filter' : Filter M}
  (hsame : p.SameLeaves S (.mapping packing entries) (.mapping packing' entries'))
  (hsteady : p.EachLeaf S (.mapping packing entries) fun leaf _ => leaf.Steady)

include hsame hsteady

/-- The database takes the values of both trees or of neither. -/
theorem checkValues_congr {comparator' : Comparator}
    (h : p.node S comparator packing entries = .ok filter)
    (h' : p.node S comparator' packing' entries' = .ok filter') :
    filter'.checkValues = .ok () ↔ filter.checkValues = .ok () := by
  rw [checkValues_node h, checkValues_node h']
  refine (hsame.eachLeaf_iff fun leaf source hreads leaf' hmembers => ?_).symm
  exact hmembers.accepted_iff (hsteady leaf source hreads)

omit hsteady in
/-- Trees whose leaves become equally true are equally true. -/
theorem truth_congr (h : p.node S comparator packing entries = .ok filter)
    (h' : p.node S comparator packing' entries' = .ok filter') {a : Assignment M}
    (htruth : ∀ leaf source leaf', p.Reads S (.mapping packing entries) leaf source →
      leaf.SameMembers leaf' →
        (leaf.filter comparator source).truth a = (leaf'.filter comparator source).truth a) :
    filter'.truth a = filter.truth a := by
  refine Truth.eq_of_iff ?_ ?_
  · rw [truth_node_eq_true h, truth_node_eq_true h']
    refine (hsame.eachLeaf_iff fun leaf source hreads leaf' hmembers => ?_).symm
    rw [htruth leaf source leaf' hreads hmembers]
  · rw [truth_node_ne_false h, truth_node_ne_false h']
    refine (hsame.eachLeaf_iff fun leaf source hreads leaf' hmembers => ?_).symm
    rw [htruth leaf source leaf' hreads hmembers]

theorem allow_congr (h : p.node S .equal packing entries = .ok filter)
    (h' : p.node S .equal packing' entries' = .ok filter')
    (haccepted : p.EachLeaf S (.mapping packing entries) fun leaf _ => leaf.Accepted)
    (a : Assignment M) : filter'.truth a = filter.truth a :=
  truth_congr hsame h h' fun leaf source _ hreads hmembers =>
    hmembers.truth_equal (hsteady leaf source hreads) (haccepted leaf source hreads)

theorem deny_congr (h : p.node S .distinct packing entries = .ok filter)
    (h' : p.node S .distinct packing' entries' = .ok filter')
    (haccepted : p.EachLeaf S (.mapping packing entries) fun leaf _ => leaf.Accepted)
    (hdefined : p.EachLeaf S (.mapping packing entries) fun leaf _ => leaf.Defined)
    (a : Assignment M) : filter'.truth a = filter.truth a :=
  truth_congr hsame h h' fun leaf source _ hreads hmembers =>
    hmembers.truth_distinct (hsteady leaf source hreads) (haccepted leaf source hreads)
      (hdefined leaf source hreads)

end SameLeaves

/-- The two filters that a tree compiles to, if it compiles at all. The database takes the values of
either if it takes those of every leaf. The filter to allow by is then true for what every leaf
matches. If no value is undefined, the filter to deny by is true for what no leaf matches, and false
for anything else. And if every member of a leaf is compared as it would be by itself, a leaf
matches what has one of its members, and a tree whose leaves have the same members compiles to
filters that the database takes alike and that are as true as these. -/
theorem opposite_comparisons
    (h : p.node S comparator packing entries = .ok filter) :
    let tree := Value.mapping packing entries
    ∃ allow deny, p.node S .equal packing entries = .ok allow ∧
      p.node S .distinct packing entries = .ok deny ∧
      (∀ path key value, tree.LeafAt path key value →
        ∃ leaf source, p.ReadsAt S path key value leaf source) ∧
      (allow.checkValues = .ok () ↔ p.EachLeaf S tree fun leaf _ => leaf.Accepted) ∧
      (deny.checkValues = .ok () ↔ p.EachLeaf S tree fun leaf _ => leaf.Accepted) ∧
      ((p.EachLeaf S tree fun leaf _ => leaf.Accepted) → ∀ a : Assignment M,
        (allow.truth a = some true ↔
          p.EachLeaf S tree fun leaf source => leaf.MatchesRow (a source)) ∧
        ((p.EachLeaf S tree fun leaf _ => leaf.Defined) →
          (deny.truth a = some true ↔
            p.EachLeaf S tree fun leaf source => ¬ leaf.MatchesRow (a source)) ∧
          (deny.truth a = some false ↔
            ∃ leaf source, p.Reads S tree leaf source ∧ leaf.MatchesRow (a source))) ∧
        p.EachLeaf S tree fun leaf source => leaf.Steady →
          (leaf.MatchesRow (a source) ↔ ∃ v ∈ leaf.operand.members,
            leaf.column.Finds v (leaf.column.cell (a source)))) ∧
      ∀ packing' entries' comparator' filter',
        p.node S comparator' packing' entries' = .ok filter' →
        (tree.AskSame (.mapping packing' entries') →
          p.SameLeaves S tree (.mapping packing' entries')) ∧
        (p.SameLeaves S tree (.mapping packing' entries') →
          (p.EachLeaf S tree fun leaf _ => leaf.Steady) →
          ∃ allow' deny', p.node S .equal packing' entries' = .ok allow' ∧
            p.node S .distinct packing' entries' = .ok deny' ∧
            (allow'.checkValues = .ok () ↔ allow.checkValues = .ok ()) ∧
            (deny'.checkValues = .ok () ↔ deny.checkValues = .ok ()) ∧
            (allow.checkValues = .ok () → ∀ a : Assignment M,
              allow'.truth a = allow.truth a ∧
              ((p.EachLeaf S tree fun leaf _ => leaf.Defined) →
                deny'.truth a = deny.truth a))) := by
  intro tree
  obtain ⟨allow, hallow⟩ := exists_node .equal h
  obtain ⟨deny, hdeny⟩ := exists_node .distinct h
  refine ⟨allow, deny, hallow, hdeny, fun path key value hleaf => exists_readsAt h hleaf,
    checkValues_node hallow, checkValues_node hdeny, ?_, ?_⟩
  · intro haccepted a
    exact ⟨allow_eq_true_iff hallow a,
      fun hdefined => ⟨deny_eq_true_iff hdeny haccepted hdefined a,
        deny_eq_false_iff hdeny haccepted hdefined a⟩,
      fun leaf source hreads hsteady => hsteady.matches_iff (haccepted leaf source hreads)⟩
  · intro packing' entries' comparator' filter' h'
    refine ⟨sameLeaves_of_askSame h h', fun hsame hsteady => ?_⟩
    obtain ⟨allow', hallow'⟩ := exists_node .equal h'
    obtain ⟨deny', hdeny'⟩ := exists_node .distinct h'
    refine ⟨allow', deny', hallow', hdeny', checkValues_congr hsame hsteady hallow hallow',
      checkValues_congr hsame hsteady hdeny hdeny', fun htaken a => ?_⟩
    have haccepted := (checkValues_node hallow).1 htaken
    exact ⟨allow_congr hsame hsteady hallow hallow' haccepted a,
      fun hdefined => deny_congr hsame hsteady hdeny hdeny' haccepted hdefined a⟩

open Sample in
/-- Where conditions on organizations are read. -/
def organizations : Position Entity := .root .organization none {}

/-- The condition that an organization's parent is among some values. -/
def parentIn (value : Value) : List (Value × Value) := [(.text "parent_id", value)]

open Sample in
/-- The column that such a condition is about. -/
def parentColumn : ColumnRef Entity :=
  ⟨.own .organization, Sample.column "parent_id" .integer⟩

/-- What such a condition is read as if it asks for the first organization or none. -/
def firstOrNone : Leaf := ⟨parentColumn.column, .many [.int 1, .null]⟩

open Sample in
theorem opposite_comparisons_parents :
    ∃ allow deny allow' deny',
      organizations.node schema .equal .plain (parentIn (.list [.int 1, .null])) = .ok allow ∧
      organizations.node schema .distinct .plain (parentIn (.list [.int 1, .null])) = .ok deny ∧
      organizations.node schema .equal .plain (parentIn (.tuple [.null, .int 1, .int 1])) =
        .ok allow' ∧
      organizations.node schema .distinct .plain (parentIn (.tuple [.null, .int 1, .int 1])) =
        .ok deny' ∧
      ∀ a : Assignment Entity, allow'.truth a = allow.truth a ∧ deny'.truth a = deny.truth a ∧
        (deny.truth a = some true ↔ ¬ allow.truth a = some true) := by
  have h : organizations.node schema .equal .plain (parentIn (.list [.int 1, .null])) =
      .ok (.either (.isNull parentColumn) (.among parentColumn [.int 1])) := rfl
  have h' : organizations.node schema .equal .plain
      (parentIn (.tuple [.null, .int 1, .int 1])) =
        .ok (.either (.isNull parentColumn) (.among parentColumn [.int 1, .int 1])) := rfl
  have hread : schema.readLeaf organizations.reflector organizations.model (.text "parent_id")
      (.list [.int 1, .null]) = .ok firstOrNone := rfl
  have hsingle : ∀ {Q : Leaf → Source Entity → Prop}, organizations.EachLeaf schema
      (.plain (parentIn (.list [.int 1, .null]))) Q ↔ Q firstOrNone organizations.source :=
    eachLeaf_single rfl hread
  have hsteady : firstOrNone.Steady := by
    have hpresent : firstOrNone.operand.present = [.int 1] := rfl
    refine Leaf.steady_of_one_kind ?_
    simp [hpresent]
  have hdefined : firstOrNone.Defined :=
    Leaf.defined_of_values (by simp [firstOrNone, Operand.members])
  have haccepted : firstOrNone.Accepted := ⟨[.int 1], rfl⟩
  have hasked : ∀ v, v ∈ (Value.list [.int 1, .null]).asked ↔
      v ∈ (Value.tuple [.null, .int 1, .int 1]).asked := by
    intro v
    simp [Value.asked, Value.elements?, or_comm]
  obtain ⟨allow, deny, hallow, hdeny, -, htaken, -, htruth, hother⟩ := opposite_comparisons h
  obtain ⟨hsame, hequal⟩ := hother _ _ _ _ h'
  obtain ⟨allow', deny', hallow', hdeny', -, -, hequal⟩ :=
    hequal (hsame (askSame_single rfl rfl hasked)) (hsingle.2 hsteady)
  refine ⟨allow, deny, allow', deny', hallow, hdeny, hallow', hdeny', fun a => ?_⟩
  obtain ⟨hequal, hdistinct⟩ := hequal (htaken.2 (hsingle.2 haccepted)) a
  obtain ⟨hallowed, hdenied, -⟩ := htruth (hsingle.2 haccepted) a
  refine ⟨hequal, hdistinct (hsingle.2 hdefined), ?_⟩
  rw [(hdenied (hsingle.2 hdefined)).1, hallowed, hsingle, hsingle]

open Sample in
/-- Without the provisions the comparisons are no opposites. A decimal that is undefined matches no
parent, and yet an organization without a parent is denied by it. A number too large for the
database is neither kept nor denied. And beside the double zero that number is taken if it comes
second, but not if it comes first. -/
theorem comparisons_not_opposite :
    (∃ deny, organizations.node schema .distinct .plain
        (parentIn (.decimal (.undefined false false))) = .ok deny ∧
      deny.checkValues = .ok () ∧
      deny.truth (fun _ => (rows .organization).head?) = some false ∧
      organizations.EachLeaf schema (.plain (parentIn (.decimal (.undefined false false))))
        fun leaf _ => ¬ leaf.MatchesRow (rows .organization).head?) ∧
    (∃ deny, organizations.node schema .distinct .plain (parentIn (.int 9223372036854775808)) =
        .ok deny ∧ deny.checkValues = .error .integerTooLarge) ∧
    ∃ first second, organizations.node schema .equal .plain
        (parentIn (.list [.float (.zero false), .int 9223372036854775808])) = .ok first ∧
      organizations.node schema .equal .plain
        (parentIn (.list [.int 9223372036854775808, .float (.zero false)])) = .ok second ∧
      first.checkValues = .ok () ∧ second.checkValues = .error .integerTooLarge := by
  refine ⟨⟨_, rfl, rfl, rfl, ?_⟩, ⟨_, rfl, rfl⟩, ⟨_, _, rfl, rfl, rfl, rfl⟩⟩
  have hread : schema.readLeaf organizations.reflector organizations.model (.text "parent_id")
      (.decimal (.undefined false false)) =
        .ok ⟨parentColumn.column, .one (.decimal (.undefined false false))⟩ := rfl
  refine (eachLeaf_single rfl hread).2 ?_
  rintro (⟨-, hnull⟩ | ⟨stored, hstored, k, hk, hequal⟩)
  · simp [Operand.members] at hnull
  · have hempty : parentColumn.column.cell (rows .organization).head? = .null := rfl
    rw [hempty, Cell.equal_null_left] at hequal
    cases hequal

end Position

end RowAccess
