import RowAccess.Proofs.PlannedPaths
import RowAccess.Proofs.TreeFilter
import RowAccess.Sample.Schema
/-!
# Where compiling a condition tree descends to

Compiling a tree goes down along relationships, and joins are planned for the paths it goes down by.
The two recursions know nothing of each other. Here compiling is done once more with a record of the
positions it descends to; without the record it is what it was. The record keeps to the plan, path
by path, and where nothing goes wrong it comes to the end of it.
-/

namespace RowAccess

/-- A computation with the positions it has descended to on the way, whatever came of it. -/
structure Traced (M α : Type) where
  descents : List (Position M)
  outcome : Except Fault α

namespace Traced

variable {M α β : Type}

/-- A computation that does not descend. -/
def still (x : Except Fault α) : Traced M α := ⟨[], x⟩

instance : Monad (Traced M) where
  pure a := still (.ok a)
  bind x f :=
    match x.outcome with
    | .ok a => ⟨x.descents ++ (f a).descents, (f a).outcome⟩
    | .error fault => ⟨x.descents, .error fault⟩

@[simp] theorem outcome_still (x : Except Fault α) : (still x : Traced M α).outcome = x := rfl

theorem outcome_bind (x : Traced M α) (f : α → Traced M β) :
    (x >>= f).outcome = x.outcome >>= fun a => (f a).outcome := by
  obtain ⟨descents, _ | a⟩ := x <;> rfl

theorem bind_of_ok {x : Traced M α} {a : α} (h : x.outcome = .ok a) (f : α → Traced M β) :
    x >>= f = ⟨x.descents ++ (f a).descents, (f a).outcome⟩ := by
  obtain ⟨descents, outcome⟩ := x
  obtain rfl : outcome = .ok a := h
  rfl

theorem bind_of_error {x : Traced M α} {fault : Fault} (h : x.outcome = .error fault)
    (f : α → Traced M β) : x >>= f = ⟨x.descents, .error fault⟩ := by
  obtain ⟨descents, outcome⟩ := x
  obtain rfl : outcome = .error fault := h
  rfl

end Traced

namespace Position

variable {M : Type} (S : Schema M)

/-- Descends, with the position that is come to if there is one. -/
def traceDescend (p : Position M) (name : Value) : Traced M (Position M) :=
  ⟨(p.descend S name).toOption.toList, p.descend S name⟩

variable [DecidableEq M]

mutual

/-- The comparison that one key of a tree asks for, with the descents on the way to it. -/
def traceComparison (comparator : Comparator) (p : Position M) (key : Value) :
    Value → Traced M (Filter M)
  | .mapping packing entries =>
    match key.text? with
    | none => .still (.error (.malformedTree key (.mapping packing entries) .keyNotText))
    | some _ => do
      let child ← p.traceDescend S key
      let filters ← traceComparisons comparator child entries
      .still (child.conjunction (.mapping packing entries) filters)
  | value =>
    match key.text? with
    | none => .still (.error (.malformedTree key value .keyNotText))
    | some _ => .still (p.leaf S comparator key value)
termination_by structural v => v

/-- The comparisons that the entries of a tree ask for, with the descents on the way to them. -/
def traceComparisons (comparator : Comparator) (p : Position M) :
    List (Value × Value) → Traced M (List (Filter M))
  | [] => .still (.ok [])
  | (key, value) :: rest => do
    let filter ← traceComparison comparator p key value
    let filters ← traceComparisons comparator p rest
    .still (.ok (filter :: filters))
termination_by structural v => v

end

/-- The filter that a tree of conditions stands for at a position, with the descents on the way. -/
def traceNode (comparator : Comparator) (p : Position M) (packing : Packing)
    (entries : List (Value × Value)) : Traced M (Filter M) := do
  let filters ← traceComparisons S comparator p entries
  .still (p.conjunction (.mapping packing entries) filters)

/-- Along keys that are texts a position leads to one whose path is longer by these texts. -/
def LeadsTo (p : Position M) (keys : List Value) (child : Position M) : Prop :=
  ∃ names, JoinSet.pathOf? keys = some names ∧ child.path = p.path ++ names

variable {S}

/-! ## The record changes nothing -/

theorem traceComparison_leaf (comparator : Comparator) (p : Position M) (key : Value)
    {value : Value} (hvalue : value.isMapping = false) :
    traceComparison S comparator p key value = .still (comparison S comparator p key value) := by
  cases value with
  | mapping packing entries => cases hvalue
  | _ =>
      rw [traceComparison, comparison]
      · cases key.text? <;> rfl
      all_goals simp

theorem traceComparison_of_no_text (comparator : Comparator) (p : Position M) {key : Value}
    (hkey : key.text? = none) (packing : Packing) (entries : List (Value × Value)) :
    traceComparison S comparator p key (.mapping packing entries) =
      .still (comparison S comparator p key (.mapping packing entries)) := by
  rw [traceComparison, comparison, hkey]

theorem traceComparison_nested (comparator : Comparator) (p : Position M) {key : Value}
    {name : String} (hkey : key.text? = some name) (packing : Packing)
    (entries : List (Value × Value)) :
    traceComparison S comparator p key (.mapping packing entries) =
      p.traceDescend S key >>= fun child => traceComparisons S comparator child entries >>=
        fun filters => .still (child.conjunction (.mapping packing entries) filters) := by
  rw [traceComparison, hkey]

theorem traceComparisons_cons (comparator : Comparator) (p : Position M) (key value : Value)
    (rest : List (Value × Value)) :
    traceComparisons S comparator p ((key, value) :: rest) =
      traceComparison S comparator p key value >>= fun filter =>
        traceComparisons S comparator p rest >>= fun filters =>
          .still (.ok (filter :: filters)) := by
  rw [traceComparisons]

theorem outcome_traceComparisons_cons {comparator : Comparator} {p : Position M} {key value : Value}
    {rest : List (Value × Value)}
    (hfirst : (traceComparison S comparator p key value).outcome =
      comparison S comparator p key value)
    (hrest : (traceComparisons S comparator p rest).outcome = comparisons S comparator p rest) :
    (traceComparisons S comparator p ((key, value) :: rest)).outcome =
      comparisons S comparator p ((key, value) :: rest) := by
  rw [traceComparisons_cons, comparisons_cons, Traced.outcome_bind, hfirst]
  simp only [Traced.outcome_bind, hrest, Traced.outcome_still]

theorem outcome_traceComparisons (comparator : Comparator) (entries : List (Value × Value))
    (p : Position M) :
    (traceComparisons S comparator p entries).outcome = comparisons S comparator p entries := by
  induction entries using Value.entries_induction generalizing p with
  | nil => rfl
  | leaf key value rest hvalue ih =>
      refine outcome_traceComparisons_cons ?_ (ih p)
      rw [traceComparison_leaf comparator p key hvalue, Traced.outcome_still]
  | nested key packing entries rest ihEntries ihRest =>
      refine outcome_traceComparisons_cons ?_ (ihRest p)
      cases hkey : key.text? with
      | none => rw [traceComparison_of_no_text comparator p hkey, Traced.outcome_still]
      | some name =>
          rw [traceComparison_nested comparator p hkey, comparison_nested comparator p hkey]
          simp only [Traced.outcome_bind, ihEntries, Traced.outcome_still, traceDescend]

theorem outcome_traceNode (comparator : Comparator) (p : Position M) (packing : Packing)
    (entries : List (Value × Value)) :
    (p.traceNode S comparator packing entries).outcome = p.node S comparator packing entries := by
  rw [traceNode, node, Traced.outcome_bind, outcome_traceComparisons]
  rfl

end Position

/-! ## Descending along a plan -/

/-- A computation descends along the paths of a plan, one after the other from the first on, and to
the last of them if it succeeds. -/
def Traced.KeepsTo {M α : Type} (p : Position M) (plan : List (List Value)) (x : Traced M α) :
    Prop :=
  ∃ reached rest, plan = reached ++ rest ∧ List.Forall₂ p.LeadsTo reached x.descents ∧
    ∀ a, x.outcome = .ok a → rest = []

namespace Traced.KeepsTo

variable {M α β : Type} {p : Position M} {plan later : List (List Value)} {x : Traced M α}

theorem still (x : Except Fault α) : KeepsTo p [] (.still x) := ⟨[], [], rfl, .nil, fun _ _ => rfl⟩

/-- What fails at once keeps to any plan. -/
theorem fail (plan : List (List Value)) (fault : Fault) :
    (.still (.error fault) : Traced M α).KeepsTo p plan := ⟨[], plan, rfl, .nil, nofun⟩

/-- A plan may go on where the computation does. -/
theorem bind {f : α → Traced M β} (hx : KeepsTo p plan x)
    (hf : ∀ a, x.outcome = .ok a → KeepsTo p later (f a)) :
    KeepsTo p (plan ++ later) (x >>= f) := by
  obtain ⟨reached, rest, rfl, hdescents, hend⟩ := hx
  cases houtcome : x.outcome with
  | error fault =>
      rw [bind_of_error houtcome]
      exact ⟨reached, rest ++ later, List.append_assoc .., hdescents, nofun⟩
  | ok a =>
      rw [bind_of_ok houtcome]
      obtain rfl := hend a houtcome
      obtain ⟨further, rest, rfl, hfurther, hend⟩ := hf a houtcome
      exact ⟨reached ++ further, rest, by simp, List.rel_append hdescents hfurther, hend⟩

/-- What follows a plan below a position follows it above, with the key in front of all paths. -/
theorem below {child : Position M} {key : Value} (hchild : p.LeadsTo [key] child)
    (h : KeepsTo child plan x) : KeepsTo p (plan.map (key :: ·)) x := by
  obtain ⟨reached, rest, rfl, hdescents, hend⟩ := h
  refine ⟨reached.map (key :: ·), rest.map (key :: ·), List.map_append, ?_, fun a ha => ?_⟩
  · rw [List.forall₂_map_left_iff]
    refine hdescents.imp fun keys further hfurther => ?_
    obtain ⟨names, hnames, hpath⟩ := hchild
    obtain ⟨name, names', hname, hnil, rfl⟩ := Value.pathOf?_cons_eq_some_iff.1 hnames
    obtain rfl : [] = names' := Option.some.inj hnil
    obtain ⟨others, hothers, hfurther⟩ := hfurther
    exact ⟨name :: others, Value.pathOf?_cons_eq_some_iff.2 ⟨name, others, hname, hothers, rfl⟩,
      by simp [hfurther, hpath]⟩
  · rw [hend a ha, List.map_nil]

end Traced.KeepsTo

namespace Position

variable {M : Type} {S : Schema M}

theorem leadsTo_of_descend {p child : Position M} {key : Value} (h : p.descend S key = .ok child) :
    p.LeadsTo [key] child := by
  obtain ⟨name, r, source, hname, hfound, -, rfl⟩ := descend_eq_ok_iff.1 h
  obtain rfl := Model.name_of_relationship? hfound
  exact ⟨[r.name], Value.pathOf?_cons_eq_some_iff.2 ⟨r.name, [], hname, rfl, rfl⟩, rfl⟩

theorem keepsTo_traceDescend (p : Position M) (key : Value) :
    (p.traceDescend S key).KeepsTo p [[key]] := by
  unfold traceDescend
  cases hdescend : p.descend S key with
  | error fault => exact .fail _ fault
  | ok child => exact ⟨[[key]], [], rfl, .cons (leadsTo_of_descend hdescend) .nil, fun _ _ => rfl⟩

variable [DecidableEq M]

/-- The first entry keeps to the first part of a plan, the others to the rest of it. -/
theorem keepsTo_traceComparisons_cons {comparator : Comparator} {p : Position M} {key value : Value}
    {rest : List (Value × Value)} {plan later : List (List Value)}
    (hfirst : (traceComparison S comparator p key value).KeepsTo p plan)
    (hrest : (traceComparisons S comparator p rest).KeepsTo p later) :
    (traceComparisons S comparator p ((key, value) :: rest)).KeepsTo p (plan ++ later) := by
  rw [traceComparisons_cons]
  refine hfirst.bind fun filter _ => ?_
  simpa using hrest.bind fun filters _ => Traced.KeepsTo.still (.ok (filter :: filters))

/-- Compiling the entries of a tree descends along the paths whose joins are planned for them. -/
theorem keepsTo_traceComparisons (comparator : Comparator) (entries : List (Value × Value))
    (p : Position M) :
    (traceComparisons S comparator p entries).KeepsTo p (Value.joinPathsOfEntries entries) := by
  induction entries using Value.entries_induction generalizing p with
  | nil =>
      rw [traceComparisons]
      exact .still _
  | leaf key value rest hvalue ih =>
      rw [Value.joinPathsOfEntries_leaf hvalue, ← List.nil_append (Value.joinPathsOfEntries rest)]
      refine keepsTo_traceComparisons_cons ?_ (ih p)
      rw [traceComparison_leaf comparator p key hvalue]
      exact .still _
  | nested key packing entries rest ihEntries ihRest =>
      rw [Value.joinPathsOfEntries_nested]
      refine keepsTo_traceComparisons_cons ?_ (ihRest p)
      cases hkey : key.text? with
      | none =>
          rw [traceComparison_of_no_text comparator p hkey, comparison_of_no_text comparator p hkey]
          exact .fail _ _
      | some name =>
          -- the key itself is descended along first, and what is planned below it comes after
          rw [traceComparison_nested comparator p hkey]
          refine (keepsTo_traceDescend p key).bind fun child hchild => ?_
          refine .below (leadsTo_of_descend hchild) ?_
          simpa using (ihEntries child).bind fun filters _ => Traced.KeepsTo.still _

theorem keepsTo_traceNode (comparator : Comparator) (p : Position M) (packing : Packing)
    (entries : List (Value × Value)) :
    (p.traceNode S comparator packing entries).KeepsTo p
      (Value.mapping packing entries).joinPaths := by
  rw [traceNode, Value.joinPaths]
  simpa using (keepsTo_traceComparisons comparator entries p).bind fun filters _ =>
    Traced.KeepsTo.still _

/-- A tree that compiles has been gone through to the end of the plan. -/
theorem descents_traceNode {comparator : Comparator} {p : Position M} {packing : Packing}
    {entries : List (Value × Value)} {filter : Filter M}
    (h : p.node S comparator packing entries = .ok filter) :
    List.Forall₂ p.LeadsTo (Value.mapping packing entries).joinPaths
      (p.traceNode S comparator packing entries).descents := by
  obtain ⟨reached, rest, hplan, hdescents, hend⟩ := keepsTo_traceNode comparator p packing entries
  obtain rfl := hend filter (by rw [outcome_traceNode, h])
  rwa [hplan, List.append_nil]

end Position

namespace Value

variable {M : Type} [DecidableEq M]

/-- The joins planned for a value are those of the key paths that lead through mappings to a
mapping, in the order of the document, and for what is no mapping there are none. A path comes after
all paths it continues, and, as the keys of a mapping differ, no path comes twice. Compiling a
mapping from any position descends, if nothing goes wrong, to these paths, one after the other and
to no others. The plan for two mappings of different keys, one stored after the other, is that of
the first and then that of the second. -/
theorem joinPaths_lists_descents (S : Schema M) (c : Value) :
    (∀ paths, c.ListsNestedTrees paths ↔ paths = c.joinPaths) ∧
    (c.distinctKeys = true →
      c.joinPaths.Pairwise fun keys later => pointwise keys later = false) ∧
    (∀ before keys after, c.joinPaths = before ++ keys :: after →
      ∀ initial, initial ≠ [] → initial <+: keys → initial ≠ keys → initial ∈ before) ∧
    (∀ packing entries, c = .mapping packing entries → ∀ (p : Position M) comparator,
      (p.traceNode S comparator packing entries).outcome = p.node S comparator packing entries ∧
      ∀ filter, p.node S comparator packing entries = .ok filter →
        List.Forall₂ p.LeadsTo c.joinPaths (p.traceNode S comparator packing entries).descents) ∧
    (c.isMapping = false → c.joinPaths = []) ∧
    ∀ packing packing' packing'' first second, (mapping packing first).distinctKeys = true →
      (mapping packing' second).distinctKeys = true →
      (∀ entry ∈ first, ∀ other ∈ second, entry.1.equals other.1 = false) →
      entriesOf (first ++ second) = first ++ second ∧
        (mapping packing'' (entriesOf (first ++ second))).joinPaths =
          (mapping packing first).joinPaths ++ (mapping packing' second).joinPaths := by
  have hlists := listsNestedTrees_joinPaths c
  refine ⟨fun paths => ⟨fun h => h.unique hlists, ?_⟩, hlists.pairwise_pointwise,
    fun before keys after hplan => ?_, ?_, ?_, ?_⟩
  · rintro rfl
    exact hlists
  · rw [hplan] at hlists
    exact fun initial => hlists.initial_mem
  · rintro packing entries rfl p comparator
    exact ⟨Position.outcome_traceNode comparator p packing entries,
      fun filter => Position.descents_traceNode⟩
  · intro hc
    cases c with
    | mapping packing entries => cases hc
    | _ => rfl
  · intro packing packing' packing'' first second hfirst hsecond hdisjoint
    have hapart : KeysApart (first ++ second) :=
      List.pairwise_append.2 ⟨(distinctKeysOf_iff.1 hfirst).1, (distinctKeysOf_iff.1 hsecond).1,
        hdisjoint⟩
    rw [entriesOf_of_keysApart hapart]
    exact ⟨rfl, joinPathsOfEntries_append first second⟩

open Sample in
/-- From the posts compiling goes to the authors and on to their organizations, and then to the
tags. -/
theorem joinPaths_lists_descents_posts :
    let author := plain [(.text "role", .text "admin"),
      (.text "organization", plain [(.text "id", .int 1)])]
    let entries : List (Value × Value) := [(.text "title", .text "x"), (.text "author", author),
      (.text "tags", plain [(.text "id", .null)])]
    let p := Position.root Entity.post none .empty
    (plain entries).distinctKeys = true ∧
      (∃ filter, p.node schema .equal .plain entries = .ok filter) ∧
      (p.traceNode schema .equal .plain entries).descents.map (·.path) =
        [["author"], ["author", "organization"], ["tags"]] ∧
      (plain entries).joinPaths.Pairwise (fun keys later => pointwise keys later = false) ∧
      List.Forall₂ p.LeadsTo (plain entries).joinPaths
        (p.traceNode schema .equal .plain entries).descents := by
  intro author entries p
  obtain ⟨filter, hfilter⟩ : ∃ filter, p.node schema .equal .plain entries = .ok filter := ⟨_, rfl⟩
  obtain ⟨-, hdistinct, -, hdescents, -⟩ := joinPaths_lists_descents schema (plain entries)
  have hpaths : (p.traceNode schema .equal .plain entries).descents.map (·.path) =
      [["author"], ["author", "organization"], ["tags"]] := rfl
  exact ⟨rfl, ⟨filter, hfilter⟩, hpaths, hdistinct rfl,
    (hdescents .plain entries rfl p .equal).2 filter hfilter⟩

end Value

end RowAccess
