import RowAccess.Proofs.LargerJoinSet
import RowAccess.Proofs.RowSelection
/-!
# One rule more

What a rule at the end of a list changes. It brings joins of its own, but a filter admits the same
rows whatever else is joined. So an allow rule adds the rows it admits by itself. A deny rule keeps
none but those; it keeps all of them where it shares no path with the rules before it, while along
a shared path one related row has to satisfy both.
-/

namespace RowAccess

namespace Database

variable {M : Type} {db : Database M}

/-- Rows chosen for joins that have no target in common can be chosen together. -/
theorem exists_respects_both {roots : List (Source M)} {first second : List (Join M)}
    (hfirst : Linked roots first) (hsecond : Linked roots second)
    (hdisjoint : ∀ s ∈ first.map (·.target), s ∉ second.map (·.target)) {a b : Assignment M}
    (ha : db.Respects first a) (hb : db.Respects second b) (hroots : ∀ s ∈ roots, a s = b s) :
    ∃ c : Assignment M, (∀ s, s ∈ roots ∨ s ∈ first.map (·.target) → c s = a s) ∧
      (∀ s, s ∈ roots ∨ s ∈ second.map (·.target) → c s = b s) ∧
      db.Respects first c ∧ db.Respects second c := by
  obtain ⟨c, hinside, houtside⟩ := Assignment.exists_pieced (· ∈ second.map (·.target)) b a
  have hroot : ∀ s ∈ roots, c s = a s := by
    intro s hs
    apply houtside
    intro hmem
    obtain ⟨j, hj, rfl⟩ := List.mem_map.1 hmem
    exact hsecond.target_not_mem hj hs
  have hsame : ∀ s, s ∈ roots ∨ s ∈ first.map (·.target) → c s = a s :=
    fun s hs => hs.elim (hroot s) fun hmem => houtside s (hdisjoint s hmem)
  have hsame' : ∀ s, s ∈ roots ∨ s ∈ second.map (·.target) → c s = b s :=
    fun s hs => hs.elim (fun hmem => (hroot s hmem).trans (hroots s hmem)) (hinside s)
  exact ⟨c, hsame, hsame', ha.congr hfirst hsame, hb.congr hsecond hsame'⟩

end Database

namespace JoinSet

variable {M : Type} {S : Schema M} {db : Database M} {small other large : JoinSet M} {x : Row}

/-- A filter reads nothing but the root and what a join set joins. -/
def Reads (joins : JoinSet M) (f : Filter M) : Prop :=
  ∀ s ∈ Layout.filterSources f, s = .own joins.model ∨ s ∈ joins.joins.map (·.target)

/-- Filters that share no path admit together the rows that each of them admits. -/
theorem Within.admits_both (h : small.Within large) (h' : other.Within large)
    (hsmall : small.Sound S) (hother : other.Sound S) (hlarge : large.Sound S)
    (hpaths : ∀ path ∈ large.paths, path ∈ small.paths ∨ path ∈ other.paths)
    (hdisjoint : ∀ path ∈ small.paths, path ∉ other.paths) {f g : Filter M}
    (hf : small.Reads f) (hg : other.Reads g) (hadmits : small.Admits db [f] x)
    (hadmits' : other.Admits db [g] x) : large.Admits db [.both f g] x := by
  obtain ⟨a, ha, hrespects, hholds⟩ := hadmits
  obtain ⟨b, hb, hrespects', hholds'⟩ := hadmits'
  have hmodel : other.model = small.model := h'.model.trans h.model.symm
  have htargets : ∀ s ∈ small.joins.map (·.target), s ∉ other.joins.map (·.target) := by
    intro s hs hs'
    rw [targets_eq] at hs hs'
    obtain ⟨j, hj, rfl⟩ := List.mem_map.1 hs
    obtain ⟨k, hk, heq⟩ := List.mem_map.1 hs'
    simp only [sourceOf, Source.mk.injEq, Role.joined.injEq] at heq
    exact hdisjoint _ (List.mem_map_of_mem hj) (heq.2.2 ▸ List.mem_map_of_mem hk)
  obtain ⟨c, hsame, hsame', hc, hc'⟩ := Database.exists_respects_both hsmall.linked
    (hmodel ▸ hother.linked) htargets hrespects hrespects' (by simp [ha, hmodel ▸ hb])
  refine ⟨c, ?_, fun j hj => ?_, fun e he => ?_⟩
  · rw [← h.model, hsame _ (.inl (by simp)), ha]
  · obtain ⟨k, hk, rfl⟩ := List.mem_map.1 hj
    rcases hpaths k.path (List.mem_map_of_mem hk) with hpath | hpath
    · exact hc _ (h.mem_of_path hlarge hk hpath)
    · exact hc' _ (h'.mem_of_path hlarge hk hpath)
  · obtain rfl := List.mem_singleton.1 he
    have hleft : f.holds c = f.holds a := Filter.holds_congr fun s hs =>
      hsame s ((hf s hs).imp_left fun heq => by simp [heq])
    have hright : g.holds c = g.holds b := Filter.holds_congr fun s hs =>
      hsame' s ((hg s hs).imp_left fun heq => by simp [heq, hmodel])
    simp [hleft, hright, hholds, hholds']

theorem admits_either {f g : Filter M} :
    large.Admits db [.either f g] x ↔ large.Admits db [f] x ∨ large.Admits db [g] x := by
  simp [Admits, and_or_left, exists_or]

theorem admits_of_both {f g : Filter M} (h : large.Admits db [.both f g] x) :
    large.Admits db [f] x ∧ large.Admits db [g] x := by
  obtain ⟨a, ha, hrespects, hholds⟩ := h
  obtain ⟨hf, hg⟩ : f.holds a = true ∧ g.holds a = true := by simpa using hholds
  exact ⟨⟨a, ha, hrespects, by simpa using hf⟩, a, ha, hrespects, by simpa using hg⟩

variable [DecidableEq M]

/-- A filter admits the same rows when more is joined than it reads. -/
theorem Within.admits_iff (h : small.Within large) (hsmall : small.Sound S)
    (hlarge : large.Sound S) {f : Filter M} (hreads : small.Reads f) :
    large.Admits db [f] x ↔ small.Admits db [f] x := by
  constructor
  · rintro ⟨a, ha, hrespects, hholds⟩
    exact ⟨a, h.model ▸ ha, fun j hj => hrespects j (h.joins_subset hj), hholds⟩
  · rintro ⟨a, ha, hrespects, hholds⟩
    have hlinked : Database.Linked [.own small.model] large.joins := h.model ▸ hlarge.linked
    obtain ⟨b, hagree, hb⟩ := db.exists_respects_beside hlinked hsmall.linked
      (fun j hj => h.mem_of_target hlarge hj) hrespects
    have hroot : b (.own small.model) = a (.own small.model) := by
      apply hagree
      left
      intro hmem
      obtain ⟨j, hj, heq⟩ := List.mem_map.1 hmem
      exact hlinked.target_not_mem hj (by simp [heq])
    refine ⟨b, by rw [← h.model, hroot, ha], hb, fun g hg => ?_⟩
    obtain rfl := List.mem_singleton.1 hg
    rw [← hholds g hg]
    apply Filter.holds_congr
    rintro s hs
    rcases hreads s hs with rfl | hmem
    · exact hroot
    · exact hagree s (.inr hmem)

end JoinSet

namespace Select

variable {M : Type} [DecidableEq M] {S : Schema M} {db : Database M} {model : M}
  {rules : List Rule} {rule : Rule} {reflector : Reflector M}

/-- A statement on a model that the rules applied to it leave with a single filter. -/
structure Filtered (S : Schema M) (model : M) (rules : List Rule) (reflector : Reflector M)
    (applied : Select M) (joins : JoinSet M) (f : Filter M) : Prop where
  joinsFor : (ofModel model).joinsFor S model rules reflector = (joins, none)
  compile : Rule.compile S model rules (some joins) reflector = .ok (.filtered f)
  onRoot : OnRoot S applied joins
  model : joins.model = model
  conditions : applied.conditions = [f]
  reads : joins.Reads f

/-- Rules that all have conditions leave a filter. -/
theorem filtered_applyRules {distinct : Bool} {applied : Select M} (hrules : rules ≠ [])
    (hconditional : ∀ r ∈ rules, r.unconditional = false)
    (happlied : applyRules S (ofModel model) model rules reflector distinct = .ok applied) :
    ∃ joins f, Filtered S model rules reflector applied joins f := by
  obtain ⟨joins, restriction, hjoins, hcompile, hroot, hmodel, hconditions, -⟩ :=
    onRoot_applyRules (by simp) happlied
  obtain ⟨f, rfl⟩ := Rule.exists_filtered hcompile hconditional (.inr hrules)
  exact ⟨joins, f, hjoins, hcompile, hroot, hmodel, hconditions,
    Restriction.source_mem_of_compile hroot.sound hmodel hcompile f (by simp [Restriction.filter?])⟩

variable {applied base single extended : Select M} {joins joins' large : JoinSet M} {f g : Filter M}

theorem Filtered.run_ok_iff (h : Filtered S model rules reflector applied joins f)
    (db : Database M) : (∃ rows, applied.run S db = .ok rows) ↔ f.checkValues = .ok () := by
  rw [h.onRoot.run_ok_iff, Restriction.taken_iff h.model h.compile h.conditions]
  simp [Restriction.filter?]

theorem Filtered.mem_run (h : Filtered S model rules reflector applied joins f)
    {rows : List (List (Field M))} (hrows : applied.run S db = .ok rows) {r : List (Field M)} :
    r ∈ rows ↔ ∃ x ∈ db.rows model, joins.Admits db [f] x ∧ S.resultRow model x = r := by
  rw [h.onRoot.mem_run hrows, h.conditions, h.model]

/-- The rows can be read off with more joined than the rules need. -/
theorem Filtered.mem_run_within (h : Filtered S model rules reflector applied joins f)
    (hwithin : joins.Within large) (hlarge : large.Sound S) {rows : List (List (Field M))}
    (hrows : applied.run S db = .ok rows) {r : List (Field M)} :
    r ∈ rows ↔ ∃ x ∈ db.rows model, large.Admits db [f] x ∧ S.resultRow model x = r := by
  rw [h.mem_run hrows]
  simp only [hwithin.admits_iff h.onRoot.sound hlarge h.reads]

/-- A rule that can be applied by itself can be applied after others. -/
theorem Filtered.append (distinct : Bool) (h : Filtered S model rules reflector base joins f)
    (h' : Filtered S model [rule] reflector single joins' g) :
    ∃ extended large,
      applyRules S (ofModel model) model (rules ++ [rule]) reflector distinct = .ok extended ∧
      Filtered S model (rules ++ [rule]) reflector extended large (rule.extend g (some f)) ∧
      joins.Within large ∧ joins'.Within large := by
  obtain ⟨large, hlarge⟩ :
      ∃ large, (ofModel model).joinsFor S model (rules ++ [rule]) reflector = (large, none) := by
    rw [JoinSet.joinsFor_eq_none_iff, List.forall_mem_append]
    exact ⟨JoinSet.joinsFor_eq_none_iff.1 ⟨joins, h.joinsFor⟩,
      JoinSet.joinsFor_eq_none_iff.1 ⟨joins', h'.joinsFor⟩⟩
  have hwithin := JoinSet.within_joinsFor h.joinsFor hlarge (by simp)
  have hwithin' := JoinSet.within_joinsFor h'.joinsFor hlarge (by simp)
  have hsound := JoinSet.sound_joinsFor hlarge
  have hkeeps : Position.Keeps joins large := fun _ _ => hwithin.sourceFor h.onRoot.sound hsound
  have hkeeps' : Position.Keeps joins' large :=
    fun _ _ => hwithin'.sourceFor h'.onRoot.sound hsound
  have hcompile : Rule.compile S model (rules ++ [rule]) (some large) reflector =
      .ok (.filtered (rule.extend g (some f))) := by
    obtain ⟨found, hfound, heq⟩ := Rule.compileFrom_cons h'.compile rfl
    obtain rfl : found = g := by simpa [Rule.compileFrom, Rule.extend] using heq
    rw [Rule.compile, Rule.compileFrom_append (Rule.compileFrom_keeps hkeeps h.compile),
      Rule.compileFrom, Success.bind_ok (Rule.filter?_keeps hkeeps' hfound)]
    rfl
  have happlied : applyRules S (ofModel model) model (rules ++ [rule]) reflector distinct = .ok _ :=
    applyRules_eq_ok_iff.2 ⟨large, _, hlarge, hcompile, rfl⟩
  obtain ⟨large', restriction, hlarge', hcompile', hroot, hmodel, hconditions, -⟩ :=
    onRoot_applyRules (by simp) happlied
  obtain ⟨rfl, -⟩ := Prod.mk.inj (hlarge.symm.trans hlarge')
  obtain rfl := Except.ok.inj (hcompile.symm.trans hcompile')
  exact ⟨_, large, happlied, ⟨hlarge, hcompile, hroot, hmodel, hconditions,
    Restriction.source_mem_of_compile hsound hmodel hcompile _ (by simp [Restriction.filter?])⟩,
    hwithin, hwithin'⟩

/-- A rule appended to others, all of them with conditions. If the others can be applied and so can
the rule by itself, all of them can be applied, and the result can be run when both other results
can. An allow rule adds the rows it returns by itself. A deny rule returns only rows that both
return, and all of these if it shares no path of nested conditions with the others. -/
theorem mem_run_applyRules_append {distinct : Bool} (db : Database M) (hrules : rules ≠ [])
    (hconditional : ∀ r ∈ rules, r.unconditional = false) (hrule : rule.unconditional = false)
    (hbase : applyRules S (ofModel model) model rules reflector distinct = .ok base)
    (hsingle : applyRules S (ofModel model) model [rule] reflector distinct = .ok single) :
    ∃ extended, applyRules S (ofModel model) model (rules ++ [rule]) reflector distinct =
        .ok extended ∧
      ((∃ all, extended.run S db = .ok all) ↔
        (∃ old, base.run S db = .ok old) ∧ ∃ new, single.run S db = .ok new) ∧
      ∀ all old new, extended.run S db = .ok all → base.run S db = .ok old →
        single.run S db = .ok new →
        (rule.allows = true → ∀ r, r ∈ all ↔ r ∈ old ∨ r ∈ new) ∧
        (rule.allows = false →
          (∀ r ∈ all, r ∈ old ∧ r ∈ new) ∧
          (((db.rows model).map (S.keyCells model)).Nodup →
            (∀ path, (∃ r ∈ rules, r.conditions.NestedAt path) → ¬ rule.conditions.NestedAt path) →
            ∀ r, r ∈ all ↔ r ∈ old ∧ r ∈ new)) := by
  obtain ⟨joins, f, h⟩ := filtered_applyRules hrules hconditional hbase
  obtain ⟨joins', g, h'⟩ := filtered_applyRules (by simp) (by simpa using hrule) hsingle
  obtain ⟨extended, large, hextended, hall, hwithin, hwithin'⟩ := h.append distinct h'
  refine ⟨extended, hextended, ?_, fun all old new hrunAll hrunOld hrunNew =>
    ⟨fun hallows r => ?_, fun hdenies => ?_⟩⟩
  · rw [hall.run_ok_iff, h.run_ok_iff, h'.run_ok_iff, Rule.extend]
    split
    · exact Filter.checkValues_either f g
    · exact Filter.checkValues_both f g
  · have hextend : rule.extend g (some f) = .either f g := by simp [Rule.extend, hallows]
    rw [hall.mem_run hrunAll, h.mem_run_within hwithin hall.onRoot.sound hrunOld,
      h'.mem_run_within hwithin' hall.onRoot.sound hrunNew, hextend]
    simp only [JoinSet.admits_either, or_and_right, and_or_left, exists_or]
  · have hextend : rule.extend g (some f) = .both f g := by simp [Rule.extend, hdenies]
    rw [hextend] at hall
    have hboth : ∀ r ∈ all, r ∈ old ∧ r ∈ new := by
      intro r hr
      obtain ⟨x, hx, hadmits, rfl⟩ := (hall.mem_run hrunAll).1 hr
      obtain ⟨hf, hg⟩ := JoinSet.admits_of_both hadmits
      rw [h.mem_run_within hwithin hall.onRoot.sound hrunOld,
        h'.mem_run_within hwithin' hall.onRoot.sound hrunNew]
      exact ⟨⟨x, hx, hf, rfl⟩, x, hx, hg, rfl⟩
    refine ⟨hboth, fun hkeys hpaths r => ⟨hboth r, ?_⟩⟩
    rw [h.mem_run hrunOld, h'.mem_run hrunNew, hall.mem_run hrunAll]
    rintro ⟨⟨x, hx, hadmits, rfl⟩, y, hy, hadmits', heq⟩
    obtain rfl := resultRow_inj hkeys hy hx heq
    refine ⟨y, hy, hwithin.admits_both hwithin' h.onRoot.sound h'.onRoot.sound hall.onRoot.sound
      (fun path hpath => ?_) (fun path hpath => ?_) h.reads h'.reads hadmits hadmits', rfl⟩
    · rw [JoinSet.mem_paths_joinsFor hall.joinsFor] at hpath
      rw [JoinSet.mem_paths_joinsFor h.joinsFor, JoinSet.mem_paths_joinsFor h'.joinsFor]
      simpa [or_and_right, exists_or] using hpath
    · rw [JoinSet.mem_paths_joinsFor h.joinsFor] at hpath
      rw [JoinSet.mem_paths_joinsFor h'.joinsFor]
      simpa using hpaths path hpath

open Sample in
/-- Of the published posts, a deny rule about flagged comments leaves those that it returns by
itself. -/
theorem mem_run_applyRules_append_posts :
    let published : Rule := ⟨.bool true, .plain [(.text "is_published", .bool true)], ""⟩
    let flagged : Rule :=
      ⟨.bool false, .plain [(.text "comments", .plain [(.text "flagged", .bool true)])], ""⟩
    ∃ base single extended all old new,
      applyRules schema (ofModel .post) .post [published] {} true = .ok base ∧
      applyRules schema (ofModel .post) .post [flagged] {} true = .ok single ∧
      applyRules schema (ofModel .post) .post ([published] ++ [flagged]) {} true = .ok extended ∧
      extended.run schema database = .ok all ∧ base.run schema database = .ok old ∧
      single.run schema database = .ok new ∧ ∀ r, r ∈ all ↔ r ∈ old ∧ r ∈ new := by
  intro published flagged
  have hbase : applyRules schema (ofModel .post) .post [published] {} true = .ok _ := rfl
  have hsingle : applyRules schema (ofModel .post) .post [flagged] {} true = .ok _ := rfl
  obtain ⟨extended, hextended, hruns, hrows⟩ := mem_run_applyRules_append database (by simp)
    (by simp [published, Rule.unconditional, Value.truthy])
    (by simp [flagged, Rule.unconditional, Value.truthy]) hbase hsingle
  obtain ⟨all, hall⟩ := hruns.2 ⟨⟨_, rfl⟩, _, rfl⟩
  refine ⟨_, _, extended, all, _, _, rfl, rfl, hextended, hall, rfl, rfl, ?_⟩
  refine ((hrows all _ _ hall rfl rfl).2 rfl).2 (by decide) fun path hpath => ?_
  have hflat : ∀ entry ∈ [(Value.text "is_published", Value.bool true)],
      entry.2.isMapping = false := by
    simp [Value.isMapping]
  simp only [List.mem_singleton, exists_eq_left] at hpath
  exact absurd hpath (Value.not_nestedAt_flat hflat path)

end Select

end RowAccess
