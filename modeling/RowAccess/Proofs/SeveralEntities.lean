import RowAccess.Proofs.EntityParts
import RowAccess.Sample.Rows
/-!
# Several entities in one statement

A statement may select several models and columns, and a request restricts it once for each of
them. Unless the layout takes a join away from the table it was attached for, the rows that come
back are those of the statement itself in which every selected row is accessible by itself. How
often an entity is named, and in which place, makes no difference to this.
-/

namespace RowAccess

theorem Source.entity_described {M : Type} (source : Source M) :
    source.described.entity = source.model := by
  unfold described
  split <;> rfl

/-- The sources that a select list describes, in order. -/
def Select.sources {M : Type} (s : Select M) : List (Source M) :=
  s.selected.filterMap Selected.source?

/-- The statement that selects one source by itself. -/
def Select.ofSource {M : Type} (source : Source M) : Select M :=
  match source.role with
  | .renamed slot => { selected := [.renamed source.model slot] }
  | _ => ofModel source.model

/-- A statement that lists entities and columns of entities, without joins of its own. -/
structure Select.OfEntities {M : Type} (s : Select M) : Prop where
  listsRows : s.ListsRows
  joins : s.joins = []
  columns : ∀ c, .column c ∈ s.selected → ∀ scope path, c.source.role ≠ .joined scope path
  conditions : ∀ f ∈ s.conditions, ∀ source ∈ Layout.filterSources f,
    ∀ scope path, source.role ≠ .joined scope path

/-- A combination of rows that a statement without joins reads a result row from. -/
structure Select.Combines {M : Type} (s : Select M) (db : Database M) (a : Assignment M) :
    Prop where
  fills : db.Fills s.reads [] a
  holds : ∀ f ∈ s.conditions, f.holds a = true

/-- A statement to which parts were added. -/
structure Select.Extends {M : Type} (s : Select M) (parts : List (Part M)) (after : Select M) :
    Prop where
  selected : after.selected = s.selected
  conditions : after.conditions = s.conditions ++ parts.flatMap fun part => part.filters
  joins : after.joins = s.joins ++ Request.joinsOf parts
  limit : after.limit = s.limit

namespace Request

variable {M : Type} [DecidableEq M] (q : Request M) (S : Schema M) (db : Database M)

/-- The rows of a statement restricted to what is accessible. -/
def resultRows (s : Select M) : Except Fault (List (List (Field M))) :=
  (q.accessible S s).result >>= fun restricted => restricted.run S db

/-- A row of a source is accessible by itself. -/
def Grants (source : Source M) (x : Row) : Prop :=
  ∃ rows, q.resultRows S db (.ofSource source) = .ok rows ∧ S.resultRow source.model x ∈ rows

/-- A combination of rows in which every selected row is accessible by itself. -/
def Combines (s : Select M) (a : Assignment M) : Prop :=
  s.Combines db a ∧ ∀ source ∈ s.sources, ∃ x, a source = some x ∧ q.Grants S db source x

end Request

namespace Select

variable {M : Type} {s after : Select M} {source : Source M} {parts : List (Part M)}

theorem OfEntities.source_role (h : s.OfEntities) (hsource : source ∈ s.sources) :
    source.role = .own ∨ ∃ slot, source.role = .renamed slot := by
  obtain ⟨entry, hentry, hread⟩ := List.mem_filterMap.1 hsource
  cases entry with
  | model m =>
      cases hread
      exact .inl rfl
  | column c =>
      cases hread
      cases hrole : c.source.role with
      | own => exact .inl rfl
      | joined scope path => exact absurd hrole (h.columns c hentry scope path)
      | renamed slot => exact .inr ⟨slot, rfl⟩
  | renamed m slot =>
      cases hread
      exact .inr ⟨slot, rfl⟩
  | count c =>
      have hcounts : s.counts = true := List.any_eq_true.2 ⟨_, hentry, rfl⟩
      rw [h.listsRows.counts] at hcounts
      cases hcounts
  | constant text => cases hread

/-- What a select list describes are its sources. -/
theorem described_eq (s : Select M) :
    s.selected.filterMap Selected.described? = s.sources.map Source.described := by
  rw [sources, List.map_filterMap]
  rfl

theorem OfEntities.reads_eq (h : s.OfEntities) :
    s.reads = s.sources ++ s.conditions.flatMap Layout.filterSources := by
  simp [reads, h.joins, sources]

theorem OfEntities.sources_subset (h : s.OfEntities) : s.sources ⊆ s.reads := by
  rw [h.reads_eq]
  exact List.subset_append_left _ _

theorem OfEntities.mem_reads (h : s.OfEntities) {f : Filter M} (hf : f ∈ s.conditions)
    (hsource : source ∈ Layout.filterSources f) : source ∈ s.reads := by
  rw [h.reads_eq]
  exact List.mem_append_right _ (List.mem_flatMap.2 ⟨f, hf, hsource⟩)

/-- A statement without joins reads no joined source. -/
theorem OfEntities.reads_role (h : s.OfEntities) (hsource : source ∈ s.reads) (scope : Nat)
    (path : JoinPath) : source.role ≠ .joined scope path := by
  rw [h.reads_eq] at hsource
  rcases List.mem_append.1 hsource with hmem | hmem
  · rcases h.source_role hmem with hown | ⟨slot, hrenamed⟩
    · simp [hown]
    · simp [hrenamed]
  · obtain ⟨f, hf, hmem⟩ := List.mem_flatMap.1 hmem
    exact h.conditions f hf source hmem scope path

/-- The result row of a statement depends on the sources of its select list only. -/
theorem fields_congr_sources {S : Schema M} {a b : Assignment M}
    (hagree : ∀ source ∈ s.sources, a source = b source) :
    s.fields S (fun _ => 0) 0 a = s.fields S (fun _ => 0) 0 b := by
  refine List.map_congr_left fun entry hentry => Selected.field_congr S ?_ _ _
  have hread : ∀ source, entry.source? = some source → ∀ c : ColumnRef M, c.source = source →
      a.read c = b.read c := by
    intro source hsource c hc
    rw [a.read_eq, b.read_eq, hc, hagree source (List.mem_filterMap.2 ⟨entry, hentry, hsource⟩)]
  have hcolumns : ∀ source, entry.source? = some source →
      (Selected.columnsOf S source).map a.read = (Selected.columnsOf S source).map b.read := by
    intro source hsource
    refine List.map_congr_left fun c hc => hread source hsource c ?_
    obtain ⟨column, -, rfl⟩ := List.mem_map.1 hc
    rfl
  cases entry with
  | model m => exact hcolumns _ rfl
  | renamed m slot => exact hcolumns _ rfl
  | column c => exact congrArg (fun cell => [cell]) (hread _ rfl c rfl)
  | count c => rfl
  | constant text => rfl

theorem Extends.listsRows (h : s.Extends parts after) (hs : s.ListsRows) : after.ListsRows :=
  ⟨by rw [counts, h.selected]; exact hs.counts, h.limit.trans hs.limit⟩

theorem Extends.fields_eq {S : Schema M} (h : s.Extends parts after) (a : Assignment M) :
    after.fields S (fun _ => 0) 0 a = s.fields S (fun _ => 0) 0 a := by
  rw [fields, fields, h.selected]

theorem Extends.joins_eq (h : s.Extends parts after) (hs : s.OfEntities) :
    after.joins = Request.joinsOf parts := by
  rw [h.joins, hs.joins, List.nil_append]

theorem Extends.reads_subset (h : s.Extends parts after) (hs : s.OfEntities) :
    s.reads ⊆ after.reads := by
  intro source hsource
  rw [hs.reads_eq, List.mem_append] at hsource
  rw [reads, h.selected, h.conditions, List.flatMap_append]
  simp only [List.mem_append]
  rcases hsource with hmem | hmem
  · exact .inr (.inl hmem)
  · exact .inr (.inr (.inl hmem))

theorem extends_foldl (s : Select M) (parts : List (Part M)) (distinct : Bool) :
    s.Extends parts (if distinct then (parts.foldl adding s).deduplicated
      else parts.foldl adding s) := by
  obtain ⟨scopes, hscopes⟩ := foldl_adding s parts
  rw [hscopes]
  split <;> exact ⟨rfl, rfl, rfl, rfl⟩

/-- A statement that is closed stays closed. -/
theorem Extends.isClosed (h : s.Extends parts after) (hclosed : s.IsClosed) : after.IsClosed := by
  obtain ⟨f, hf, hnever⟩ := hclosed
  refine ⟨f, ?_, hnever⟩
  rw [h.conditions]
  exact List.mem_append_left _ hf

end Select

namespace Request

variable {M : Type} [DecidableEq M] {q : Request M} {S : Schema M} {db : Database M}
  {s applied : Select M} {source : Source M} {part : Part M} {parts : List (Part M)}

theorem runs_of_accessible (h : (q.accessible S s).result = .ok applied) :
    ∃ parts, q.Runs S s.scopes (s.selected.filterMap Selected.described?) parts ∧
      s.Extends parts applied := by
  rw [accessible_result, Success.map_eq_ok_iff] at h
  obtain ⟨restricted, hrestricted, rfl⟩ := h
  obtain ⟨parts, hruns, rfl⟩ := restrictToAll_eq_ok_iff.1 hrestricted
  exact ⟨parts, hruns, s.extends_foldl parts _⟩

theorem accessible_of_runs
    (h : q.Runs S s.scopes (s.selected.filterMap Selected.described?) parts) :
    ∃ applied, (q.accessible S s).result = .ok applied ∧ s.Extends parts applied := by
  refine ⟨_, ?_, s.extends_foldl parts q.config.distinct.truthy⟩
  rw [accessible_result, Success.map_eq_ok_iff]
  exact ⟨_, restrictToAll_eq_ok_iff.2 ⟨parts, h, rfl⟩, rfl⟩

/-! ## One entity by itself -/

/-- What an entity adds beside others it adds by itself, too. -/
theorem Restricts.accessible {scope : Nat} (source : Source M)
    (hpart : q.Restricts S scope source.described part)
    (hrole : source.role = .own ∨ ∃ slot, source.role = .renamed slot) :
    ∃ applied, (q.accessible S (.ofSource source)).result = .ok applied ∧
      (Select.ofSource source).Extends [part.rescope 0] applied := by
  apply accessible_of_runs
  have hfirst : q.Runs S 0 [source.described] [part.rescope 0] :=
    .cons (hpart.rescope 0) (.nil _)
  obtain ⟨model, role⟩ := source
  rcases hrole with rfl | ⟨slot, rfl⟩
  · exact hfirst
  · exact hfirst

/-- A renamed copy has no rules, and its part lets nothing through. -/
theorem Restricts.closed_of_renamed {scope : Nat} {model : M}
    (hpart : q.Restricts S scope (.renamed model) part) :
    part.filters = [.never] ∧ part.joins.joins = [] := by
  cases hpart
  exact ⟨rfl, rfl⟩

/-- With conditions from one part alone a statement hands over the values of all of them, unless the
part closes it. -/
theorem Restricts.taken_iff {scope : Nat} {d : Described M} (hpart : q.Restricts S scope d part)
    (hconditions : s.conditions = part.filters) :
    s.Taken ↔ ∀ f ∈ part.filters, f.checkValues = .ok () := by
  have hmodel := hpart.frame.1
  cases hpart with
  | closed hrules hdeny =>
      refine iff_of_true (.inl ⟨.never, by simp [hconditions], rfl⟩) ?_
      simp [Filter.checkValues]
  | ruled hrules hne hjoins hcompile => exact Restriction.taken_iff hmodel hcompile hconditions

theorem resultRows_eq_ok_iff {rows : List (List (Field M))}
    (h : (q.accessible S s).result = .ok applied) :
    q.resultRows S db s = .ok rows ↔ applied.run S db = .ok rows := by
  rw [resultRows, Success.bind_ok h]

/-- A model by itself is restricted to one root. -/
theorem Restricts.onRoot {scope : Nat} {model : M}
    (hpart : q.Restricts S scope (.model model) part) :
    ∃ applied, (q.accessible S (.ofSource (.own model))).result = .ok applied ∧
      applied.OnRoot S (part.rescope 0).joins ∧ applied.conditions = (part.rescope 0).filters := by
  have hthere := hpart.rescope 0
  obtain ⟨applied, happlied, hextends⟩ :=
    Restricts.accessible (.own model) hpart (.inl rfl)
  have hconditions : applied.conditions = (part.rescope 0).filters := by
    simpa [Select.ofSource, Select.ofModel, Source.own] using hextends.conditions
  refine ⟨applied, happlied, ⟨?_, ?_, hextends.limit, hthere.sound, ?_⟩, hconditions⟩
  · rw [hextends.selected, hthere.frame.1]
    rfl
  · simpa [Select.ofSource, Select.ofModel, Source.own, joinsOf] using hextends.joins
  · rw [hconditions]
    exact hthere.source_mem

/-- A row of a model is accessible by itself exactly if the database takes the values of the part
that the model adds, and the part admits the row. -/
theorem Restricts.grants_iff {scope : Nat} {model : M}
    (hpart : q.Restricts S scope (.model model) part)
    (hkeys : ((db.rows model).map (S.keyCells model)).Nodup) {x : Row} (hx : x ∈ db.rows model) :
    q.Grants S db (.own model) x ↔
      (∀ f ∈ part.filters, f.checkValues = .ok ()) ∧ part.joins.Admits db part.filters x := by
  obtain ⟨applied, happlied, hroot, hconditions⟩ := hpart.onRoot
  have hrun := hroot.run_ok_iff db
  have hmodel : (part.rescope 0).joins.model = model := (hpart.rescope 0).frame.1
  have hmem : ∀ rows, applied.run S db = .ok rows →
      (S.resultRow model x ∈ rows ↔
        (part.rescope 0).joins.Admits db (part.rescope 0).filters x) := by
    intro rows hrows
    rw [← hconditions]
    rw [← hmodel] at hkeys hx ⊢
    exact hroot.resultRow_mem_run hkeys hrows hx
  rw [(hpart.rescope 0).taken_iff hconditions, Part.checkValues_rescope] at hrun
  rw [← hrun, ← hpart.admits_rescope 0, Grants]
  simp only [resultRows_eq_ok_iff happlied]
  constructor
  · rintro ⟨rows, hrows, hxrows⟩
    exact ⟨⟨rows, hrows⟩, (hmem rows hrows).1 hxrows⟩
  · rintro ⟨⟨rows, hrows⟩, hadmits⟩
    exact ⟨rows, hrows, (hmem rows hrows).2 hadmits⟩

/-- Nothing is accessible of a renamed copy by itself. -/
theorem Restricts.resultRows_renamed {scope : Nat} {model : M} {slot : Nat}
    (hpart : q.Restricts S scope (.renamed model) part) :
    q.resultRows S db (.ofSource ⟨model, .renamed slot⟩) = .ok [] := by
  obtain ⟨applied, happlied, hextends⟩ :=
    Restricts.accessible ⟨model, .renamed slot⟩ hpart (.inr ⟨slot, rfl⟩)
  obtain ⟨hfilters, hjoins⟩ := (hpart.rescope 0).closed_of_renamed
  have hconditions : applied.conditions = [.never] := by
    simpa [Select.ofSource, hfilters] using hextends.conditions
  have hnone : applied.joins = [] := by
    simpa [Select.ofSource, joinsOf, hjoins] using hextends.joins
  have hlists : applied.ListsRows := hextends.listsRows ⟨rfl, rfl⟩
  have hlinked : Database.Linked [] applied.joins := hnone ▸ .nil
  obtain ⟨rows, hrows, hmem⟩ := Select.mem_run (S := S) db hlists hlinked (by simp)
    (hnone ▸ Layout.uncaptured_nil) (.inl ⟨.never, by simp [hconditions], rfl⟩)
  have hempty : rows = [] := by
    apply List.eq_nil_iff_forall_not_mem.2
    intro r hr
    obtain ⟨a, -, hholds, -⟩ := (hmem r).1 hr
    simpa using hholds .never (by simp [hconditions])
  rw [resultRows_eq_ok_iff happlied, hrows, hempty]

/-- A source can be asked for by itself if the database takes the values of its part. -/
theorem Restricts.exists_resultRows_iff {scope : Nat}
    (hpart : q.Restricts S scope source.described part)
    (hrole : source.role = .own ∨ ∃ slot, source.role = .renamed slot) (db : Database M) :
    (∃ rows, q.resultRows S db (.ofSource source) = .ok rows) ↔
      ∀ f ∈ part.filters, f.checkValues = .ok () := by
  obtain ⟨model, role⟩ := source
  rcases hrole with rfl | ⟨slot, rfl⟩
  · obtain ⟨applied, happlied, hroot, hconditions⟩ := Restricts.onRoot hpart
    have hrun := hroot.run_ok_iff db
    rw [(Restricts.rescope hpart 0).taken_iff hconditions, Part.checkValues_rescope] at hrun
    rw [← hrun]
    exact exists_congr fun rows => resultRows_eq_ok_iff happlied
  · have hnever : part.filters = [.never] := (Restricts.closed_of_renamed hpart).1
    simp only [Restricts.resultRows_renamed hpart, hnever, List.mem_singleton, forall_eq]
    exact iff_of_true ⟨[], rfl⟩ rfl

/-! ## All entities at once -/

/-- Which rows can be combined depends on which sources are selected, not on how often or in which
order. -/
theorem combines_of_same {t : Select M} {a : Assignment M} (ht : t.OfEntities) (hs : s.OfEntities)
    (hsame : ∀ source, source ∈ t.sources ↔ source ∈ s.sources)
    (hconditions : t.conditions = s.conditions) (h : q.Combines S db t a) :
    q.Combines S db s a := by
  have hreads : ∀ source, source ∈ t.reads ↔ source ∈ s.reads := by
    intro source
    rw [ht.reads_eq, hs.reads_eq, hconditions, List.mem_append, List.mem_append, hsame]
  obtain ⟨⟨hfills, hholds⟩, hgrants⟩ := h
  refine ⟨⟨⟨by simp [Database.Respects], fun source hsource => ?_, fun source hsource => ?_⟩, ?_⟩,
    fun source hsource => hgrants source ((hsame source).2 hsource)⟩
  · exact hfills.roots source ((hreads source).2 hsource)
  · exact hfills.outside source (mt (hreads source).1 hsource)
  · rw [← hconditions]
    exact hholds

section Combinations

variable (hs : s.OfEntities) (hextends : s.Extends parts applied)
  (hruns : q.Runs S s.scopes (s.sources.map Source.described) parts)
  (hkeys : ∀ model, ((db.rows model).map (S.keyCells model)).Nodup)

include hs hruns in
/-- A source that a statement reads is joined by no part. -/
theorem not_target (hsource : source ∈ s.reads) : source ∉ (joinsOf parts).map (·.target) := by
  intro hmem
  obtain ⟨n, path, -, hrole⟩ := hruns.target_role hmem
  exact hs.reads_role hsource n path hrole

include hruns in
/-- The joins of a single entity are kept, however often it is named. -/
theorem uncaptured_of_single
    (hsingle : ∀ source ∈ s.sources, ∀ other ∈ s.sources, source = other) :
    Layout.Uncaptured (joinsOf parts) := by
  cases hsources : s.sources with
  | nil =>
      rw [hsources] at hruns
      cases hruns
      exact Layout.uncaptured_nil
  | cons source rest =>
      have hone : Database.Linked [.own source.model] (joinsOf parts) := by
        refine hruns.linked.mono (fun root hroot => ?_) fun j hj => ?_
        · simp only [List.map_map, List.mem_map] at hroot
          obtain ⟨other, hother, rfl⟩ := hroot
          rw [hsingle other hother source (by simp [hsources])]
          simp [Source.entity_described]
        · obtain ⟨n, path, -, hrole⟩ := hruns.target_role (List.mem_map_of_mem hj)
          intro hmem
          rw [List.mem_singleton.1 hmem] at hrole
          cases hrole
      exact hone.uncaptured

include hs hextends hruns in
/-- The database takes the values of the statement with all parts if it takes those of the statement
itself and those of each part. -/
theorem checkValues_iff (db : Database M) : (∀ f ∈ applied.conditions, f.checkValues = .ok ()) ↔
    (∀ f ∈ s.conditions, f.checkValues = .ok ()) ∧
      ∀ source ∈ s.sources, ∃ rows, q.resultRows S db (.ofSource source) = .ok rows := by
  rw [hextends.conditions]
  simp only [List.mem_append, or_imp, forall_and, List.mem_flatMap, forall_exists_index, and_imp]
  refine and_congr_right fun _ => ⟨fun hparts source hsource => ?_, fun hsources f part hpart => ?_⟩
  · obtain ⟨n, part, hpart, hrestricts⟩ := hruns.exists_part (List.mem_map_of_mem hsource)
    rw [hrestricts.exists_resultRows_iff (hs.source_role hsource)]
    exact fun f => hparts f part hpart
  · obtain ⟨n, d, hd, hrestricts⟩ := hruns.exists_entity hpart
    obtain ⟨source, hsource, rfl⟩ := List.mem_map.1 hd
    exact (hrestricts.exists_resultRows_iff (hs.source_role hsource) db).1
      (hsources source hsource) f

include hs hextends hruns in
theorem exists_row_of_fills {a : Assignment M} (hfills : db.Fills applied.reads applied.joins a)
    (hsource : source ∈ s.reads) : ∃ x ∈ db.rows source.model, a source = some x := by
  apply hfills.roots source (hextends.reads_subset hs hsource)
  rw [hextends.joins_eq hs]
  exact not_target hs hruns hsource

include hs hextends hruns hkeys in
/-- A row that satisfies the statement with all parts is accessible by itself: what its part joins
to it satisfies that part. -/
theorem grants_of_fills {a : Assignment M} (hfills : db.Fills applied.reads applied.joins a)
    (hvalues : ∀ f ∈ applied.conditions, f.checkValues = .ok ())
    (hholds : ∀ f ∈ applied.conditions, f.holds a = true) (hsource : source ∈ s.sources) {x : Row}
    (hx : x ∈ db.rows source.model) (hax : a source = some x) : q.Grants S db source x := by
  obtain ⟨n, part, hmem, hpart⟩ := hruns.exists_part (List.mem_map_of_mem hsource)
  have hadded : ∀ f ∈ part.filters, f ∈ applied.conditions := by
    intro f hf
    rw [hextends.conditions]
    exact List.mem_append_right _ (List.mem_flatMap.2 ⟨part, hmem, hf⟩)
  obtain ⟨model, role⟩ := source
  rcases hs.source_role hsource with hrole | ⟨slot, hrole⟩
  · obtain rfl : role = .own := hrole
    refine (hpart.grants_iff (hkeys model) hx).2
      ⟨fun f hf => hvalues f (hadded f hf), a, ?_, fun j hj => ?_, fun f hf => ?_⟩
    · rw [hpart.frame.1]
      exact hax
    · apply hfills.respects j
      rw [hextends.joins_eq hs]
      exact List.mem_flatMap.2 ⟨part, hmem, hj⟩
    · exact hholds f (hadded f hf)
  · obtain rfl : role = .renamed slot := hrole
    obtain ⟨hfilters, -⟩ := hpart.closed_of_renamed
    have hnever := hholds .never (hadded .never (by simp [hfilters]))
    simp at hnever

include hs hextends hruns hkeys in
/-- What satisfies the statement with all parts holds a combination of rows that are accessible one
by one. -/
theorem combines_of_fills {a : Assignment M} (hfills : db.Fills applied.reads applied.joins a)
    (hvalues : ∀ f ∈ applied.conditions, f.checkValues = .ok ())
    (hholds : ∀ f ∈ applied.conditions, f.holds a = true) :
    ∃ b, q.Combines S db s b ∧
      s.fields S (fun _ => 0) 0 b = s.fields S (fun _ => 0) 0 a := by
  obtain ⟨b, hinside, houtside⟩ := Assignment.exists_pieced (· ∈ s.reads) a fun _ => none
  refine ⟨b, ⟨⟨⟨by simp [Database.Respects], fun source hsource _ => ?_,
    fun source hsource _ => houtside source hsource⟩, fun f hf => ?_⟩,
    fun source hsource => ?_⟩, ?_⟩
  · rw [hinside source hsource]
    exact exists_row_of_fills hs hextends hruns hfills hsource
  · have hadded : f ∈ applied.conditions := by
      rw [hextends.conditions]
      exact List.mem_append_left _ hf
    rw [← hholds f hadded]
    exact Filter.holds_congr fun source hsource => hinside source (hs.mem_reads hf hsource)
  · have hread := hs.sources_subset hsource
    obtain ⟨x, hx, hax⟩ := exists_row_of_fills hs hextends hruns hfills hread
    refine ⟨x, (hinside source hread).trans hax, ?_⟩
    exact grants_of_fills hs hextends hruns hkeys hfills hvalues hholds hsource hx hax
  · exact Select.fields_congr_sources fun source hsource =>
      hinside source (hs.sources_subset hsource)

section Accessible

variable {a : Assignment M} (ha : q.Combines S db s a)

include hs hruns ha in
/-- Where every selected row is accessible by itself, nothing renamed is selected. -/
theorem eq_own_of_combines (hsource : source ∈ s.sources) : source = .own source.model := by
  obtain ⟨n, part, -, hpart⟩ := hruns.exists_part (List.mem_map_of_mem hsource)
  obtain ⟨model, role⟩ := source
  rcases hs.source_role hsource with hrole | ⟨slot, hrole⟩
  · obtain rfl : role = .own := hrole
    rfl
  · obtain rfl : role = .renamed slot := hrole
    obtain ⟨x, -, rows, hrows, hmem⟩ := ha.2 _ hsource
    rw [hpart.resultRows_renamed] at hrows
    obtain rfl := Except.ok.inj hrows
    simp at hmem

include hs hruns hkeys ha in
theorem admits_of_combines (hpart : part ∈ parts) : ∃ x,
    a (.own part.joins.model) = some x ∧ part.joins.Admits db part.filters x := by
  obtain ⟨n, d, hd, hrestricts⟩ := hruns.exists_entity hpart
  obtain ⟨source, hsource, rfl⟩ := List.mem_map.1 hd
  have hown := eq_own_of_combines hs hruns ha hsource
  obtain ⟨x, hax, hgrants⟩ := ha.2 source hsource
  obtain ⟨y, hy, hay⟩ := ha.1.fills.roots source (hs.sources_subset hsource) (by simp)
  obtain rfl := Option.some.inj (hax.symm.trans hay)
  rw [hown] at hrestricts hgrants hax
  refine ⟨x, ?_, ((hrestricts.grants_iff (hkeys source.model) hy).1 hgrants).2⟩
  rw [hrestricts.frame.1]
  exact hax

include hs hextends hruns ha in
/-- Besides what is joined, the statement with all parts reads what the statement itself reads. -/
theorem mem_reads_of_applied (hsource : source ∈ applied.reads)
    (htarget : source ∉ (joinsOf parts).map (·.target)) : source ∈ s.reads := by
  have hroots : ∀ root, root ∈ (s.sources.map Source.described).map (fun d => Source.own d.entity) →
      root ∈ s.reads := by
    intro root hroot
    simp only [List.map_map, List.mem_map] at hroot
    obtain ⟨other, hother, rfl⟩ := hroot
    have hown := eq_own_of_combines hs hruns ha hother
    rw [hown] at hother ⊢
    exact hs.sources_subset hother
  rw [Select.reads, hextends.selected, hextends.conditions, hextends.joins_eq hs,
    List.flatMap_append] at hsource
  simp only [List.mem_append] at hsource
  rcases hsource with hparent | hselected | hcondition | hfilter
  · obtain ⟨j, hj, rfl⟩ := List.mem_map.1 hparent
    exact hroots _ ((hruns.linked.parent_mem hj).resolve_right htarget)
  · exact hs.sources_subset hselected
  · obtain ⟨f, hf, hmem⟩ := List.mem_flatMap.1 hcondition
    exact hs.mem_reads hf hmem
  · obtain ⟨f, hf, hmem⟩ := List.mem_flatMap.1 hfilter
    exact hroots _ ((hruns.source_mem hf hmem).resolve_right htarget)

include hs hextends hruns hkeys ha in
/-- A combination of rows that are accessible one by one can be completed by rows of the joined
tables so that the statement with all parts is satisfied. -/
theorem fills_of_combines : ∃ b, db.Fills applied.reads applied.joins b ∧
    (∀ f ∈ applied.conditions, f.holds b = true) ∧
    s.fields S (fun _ => 0) 0 b = s.fields S (fun _ => 0) 0 a := by
  obtain ⟨b, hagree, hrespects, hholds⟩ := hruns.exists_assignment
    fun part hpart => admits_of_combines hs hruns hkeys ha hpart
  have hsame : ∀ source ∈ s.reads, b source = a source :=
    fun source hsource => hagree source (not_target hs hruns hsource)
  have hjoins := hextends.joins_eq hs
  refine ⟨b, ⟨hjoins ▸ hrespects, fun source hsource htarget => ?_,
    fun source hsource htarget => ?_⟩, fun f hf => ?_, ?_⟩
  · rw [hjoins] at htarget
    have hread := mem_reads_of_applied hs hextends hruns ha hsource htarget
    rw [hsame source hread]
    exact ha.1.fills.roots source hread (by simp)
  · rw [hjoins] at htarget
    rw [hagree source htarget]
    refine ha.1.fills.outside source (fun hread => hsource ?_) (by simp)
    exact hextends.reads_subset hs hread
  · rw [hextends.conditions] at hf
    rcases List.mem_append.1 hf with hf | hf
    · rw [← ha.1.holds f hf]
      exact Filter.holds_congr fun source hsource => hsame source (hs.mem_reads hf hsource)
    · exact hholds f hf
  · exact Select.fields_congr_sources fun source hsource => hsame source (hs.sources_subset hsource)

end Accessible

end Combinations

end Request

namespace Select

variable {M : Type} [DecidableEq M] {q : Request M} {S : Schema M} {db : Database M}
  {s applied : Select M}

/-- The rows of a statement without joins are read from its combinations of source rows. -/
theorem OfEntities.mem_run (h : s.OfEntities) (db : Database M) :
    ((∃ all, s.run S db = .ok all) ↔ s.Taken) ∧
    ∀ all, s.run S db = .ok all → ∀ r, r ∈ all ↔
      ∃ a, s.Combines db a ∧ s.fields S (fun _ => 0) 0 a = r := by
  have hlinked : Database.Linked [] s.joins := h.joins ▸ .nil
  have hclear : Layout.Uncaptured s.joins := h.joins ▸ Layout.uncaptured_nil
  have hruns := exists_run_iff (S := S) db h.listsRows hlinked (by simp) hclear
  refine ⟨hruns, fun all hall r => ?_⟩
  obtain ⟨rows, hrows, hmem⟩ :=
    Select.mem_run (S := S) db h.listsRows hlinked (by simp) hclear (hruns.1 ⟨all, hall⟩)
  obtain rfl := Except.ok.inj (hall.symm.trans hrows)
  rw [hmem, h.joins]
  constructor
  · rintro ⟨a, hfills, hholds, rfl⟩
    exact ⟨a, ⟨hfills, hholds⟩, rfl⟩
  · rintro ⟨a, ⟨hfills, hholds⟩, rfl⟩
    exact ⟨a, hfills, hholds, rfl⟩

/-- What comes back for a statement that lists entities and columns of them. Each of its sources can
be asked for by itself. If the layout keeps all joins at the tables they were attached for, and it
does so for a single entity however often it is named, the restricted statement runs exactly if it
is closed or the statement itself and the requests for its sources run, and it returns the rows that
are read from the combinations in which every selected row is accessible by itself. These depend on
which sources are selected, not on how often or in which order. -/
theorem mem_run_accessible (hs : s.OfEntities)
    (hkeys : ∀ model, ((db.rows model).map (S.keyCells model)).Nodup)
    (haccessible : (q.accessible S s).result = .ok applied) :
    (∀ source ∈ s.sources, ∃ alone, (q.accessible S (ofSource source)).result = .ok alone) ∧
    ((∃ chains, Layout.chains applied = .ok chains ∧
      ∀ j ∈ applied.joins, ∃ chain ∈ chains, j ∈ chain.joins) ↔
        Layout.Uncaptured applied.joins) ∧
    ((∀ source ∈ s.sources, ∀ other ∈ s.sources, source = other) →
      Layout.Uncaptured applied.joins) ∧
    (Layout.Uncaptured applied.joins →
      ((∃ rows, applied.run S db = .ok rows) ↔ applied.IsClosed ∨
        (∃ all, s.run S db = .ok all) ∧
          ∀ source ∈ s.sources, ∃ rows, q.resultRows S db (ofSource source) = .ok rows) ∧
      ∀ rows, applied.run S db = .ok rows → ∀ r, r ∈ rows ↔
        ∃ a, q.Combines S db s a ∧ s.fields S (fun _ => 0) 0 a = r) ∧
    (∀ all, s.run S db = .ok all → ∀ r, r ∈ all ↔
      ∃ a, s.Combines db a ∧ s.fields S (fun _ => 0) 0 a = r) ∧
    ∀ t : Select M, t.OfEntities → (∀ source, source ∈ t.sources ↔ source ∈ s.sources) →
      t.conditions = s.conditions → ∀ a, q.Combines S db t a ↔ q.Combines S db s a := by
  obtain ⟨parts, hruns, hextends⟩ := Request.runs_of_accessible haccessible
  rw [s.described_eq] at hruns
  have hlists := hextends.listsRows hs.listsRows
  have hlinked := hruns.linked
  have hroots : ∀ source ∈ (s.sources.map Source.described).map fun d => Source.own d.entity,
      source.role = .own := by
    intro source hsource
    obtain ⟨d, -, rfl⟩ := List.mem_map.1 hsource
    rfl
  rw [← hextends.joins_eq hs] at hlinked
  refine ⟨fun source hsource => ?_, Layout.kept_iff_uncaptured hlinked hroots, fun hsingle => ?_,
    fun hclear => ?_, (hs.mem_run db).2, fun t ht hsame hconditions a => ?_⟩
  · obtain ⟨n, part, -, hpart⟩ := hruns.exists_part (List.mem_map_of_mem hsource)
    obtain ⟨alone, halone, -⟩ := hpart.accessible source (hs.source_role hsource)
    exact ⟨alone, halone⟩
  · rw [hextends.joins_eq hs]
    exact Request.uncaptured_of_single hruns hsingle
  · have hrun := exists_run_iff (S := S) db hlists hlinked hroots hclear
    refine ⟨?_, fun rows hrows r => ?_⟩
    · rw [hrun, (hs.mem_run db).1, Taken]
      refine or_congr_right' fun hopen => ?_
      rw [Request.checkValues_iff hs hextends hruns db,
        taken_iff_of_open (mt hextends.isClosed hopen)]
    · have htaken := hrun.1 ⟨rows, hrows⟩
      obtain ⟨found, hfound, hmem⟩ :=
        Select.mem_run (S := S) db hlists hlinked hroots hclear htaken
      obtain rfl := Except.ok.inj (hrows.symm.trans hfound)
      simp only [hmem, hextends.fields_eq]
      constructor
      · rintro ⟨a, hfills, hholds, rfl⟩
        exact Request.combines_of_fills hs hextends hruns hkeys hfills
          (htaken.checkValues hholds) hholds
      · rintro ⟨a, ha, rfl⟩
        obtain ⟨b, hfills, hholds, hfields⟩ :=
          Request.fills_of_combines hs hextends hruns hkeys ha
        exact ⟨b, hfills, hholds, hfields⟩
  · exact ⟨Request.combines_of_same ht hs hsame hconditions,
      Request.combines_of_same hs ht (fun source => (hsame source).symm) hconditions.symm⟩

/-- The statement that selects several models. -/
def ofModels {M : Type} (models : List M) : Select M := { selected := models.map Selected.model }

theorem ofEntities_ofModels {M : Type} (models : List M) : (ofModels models).OfEntities where
  listsRows := ⟨by simp [counts, ofModels, Selected.isCount], rfl⟩
  joins := rfl
  columns := by simp [ofModels]
  conditions := by simp [ofModels]

open Sample in
/-- A request to read the posts of admins and the users of one organization. -/
def postsAndUsers (config : Config) : Request Entity where
  config := config
  registry := .ofRegistrations [
    ⟨.post, .text "read", fun _ => .ok (.plain [(.text "author", .plain [(.text "role",
      .text "admin")])]), .bool true, "posts of admins", ""⟩,
    ⟨.user, .text "read", fun _ => .ok (.plain [(.text "organization", .plain [(.text "name",
      .text "Globex")])]), .bool true, "users of Globex", ""⟩]
  reflector := .empty
  actor := .nobody
  action := none

open Sample in
theorem nodup_keyCells (model : Entity) :
    ((database.rows model).map (schema.keyCells model)).Nodup := by
  cases model <;> decide

open Sample in
/-- Users before posts: each row that comes back has an accessible user and an accessible post. -/
theorem mem_run_accessible_users :
    ∃ applied,
      ((postsAndUsers {}).accessible schema (ofModels [.user, .post])).result = .ok applied ∧
      Layout.Uncaptured applied.joins ∧
      ∀ rows, applied.run schema database = .ok rows → ∀ r, r ∈ rows ↔
        ∃ a, (postsAndUsers {}).Combines schema database (ofModels [.user, .post]) a ∧
          (ofModels [.user, .post]).fields schema (fun _ => 0) 0 a = r := by
  refine ⟨_, rfl, ?_⟩
  have hrows := mem_run_accessible (q := postsAndUsers {})
    (ofEntities_ofModels [Entity.user, .post]) nodup_keyCells rfl
  have hclear := hrows.2.1.1 ⟨_, rfl, by decide⟩
  exact ⟨hclear, (hrows.2.2.2.1 hclear).2⟩

open Sample in
/-- Posts before users: the posts bring their authors along, the join from the users to their
organizations is read from those authors, and no row comes back, although a post and a user that
are both accessible by themselves can be combined. -/
theorem selected_row_not_returned :
    (ofModels [Entity.post, .user]).OfEntities ∧
      (∀ model, ((database.rows model).map (schema.keyCells model)).Nodup) ∧
      (postsAndUsers {}).resultRows schema database (ofModels [.post, .user]) = .ok [] ∧
      ∃ a, (postsAndUsers {}).Combines schema database (ofModels [.post, .user]) a := by
  refine ⟨ofEntities_ofModels _, nodup_keyCells, rfl, fun source =>
    if source = .own .post then (database.rows .post).head?
    else if source = .own .user then (database.rows .user)[3]?
    else none, ⟨⟨by simp [Database.Respects], fun source hsource _ => ?_,
      fun source hsource _ => ?_⟩, by simp [ofModels]⟩, fun source hsource => ?_⟩
  · have hread : source = .own .post ∨ source = .own .user := by
      simpa [reads, ofModels, Selected.source?] using hsource
    rcases hread with rfl | rfl
    · exact ⟨_, List.mem_cons_self, rfl⟩
    · exact ⟨_, List.mem_of_getElem? (i := 3) rfl, rfl⟩
  · have hother : source ≠ .own .post ∧ source ≠ .own .user := by
      simpa [reads, ofModels, Selected.source?, not_or] using hsource
    rw [if_neg hother.1, if_neg hother.2]
  · have hread : source = .own .post ∨ source = .own .user := by
      simpa [sources, ofModels, Selected.source?] using hsource
    rcases hread with rfl | rfl
    · exact ⟨_, rfl, [[.row .post [.int 1]], [.row .post [.int 2]], [.row .post [.int 7]]], rfl,
        List.mem_cons_self⟩
    · exact ⟨_, rfl, [[.row .user [.int 4]]], rfl, List.mem_cons_self⟩

end Select

end RowAccess
