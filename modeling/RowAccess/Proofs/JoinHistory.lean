import RowAccess.Proofs.FromClause
import RowAccess.Proofs.LargerJoinSet
/-!
# Join sets over their histories

Paths are added to a join set in any order, again and again, and some of them cannot be added. A
call that fails stops in the middle of a path. What is joined is in good order all the same: it is
closed under taking parents, it never moves, and it depends on the order of the calls in nothing
but its own order.
-/

namespace RowAccess

theorem Value.unhashableIn?_of_pathOf? {names : List Value} {path : JoinPath}
    (h : JoinSet.pathOf? names = some path) : unhashableIn? names = none := by
  induction names generalizing path with
  | nil => rfl
  | cons name names ih =>
      obtain ⟨text, rest, htext, hrest, -⟩ := pathOf?_cons_eq_some_iff.1 h
      rw [unhashableIn?, unhashable?_of_text? htext, ih hrest]
      rfl

theorem Value.unhashable?_of_mem {names : List Value} (h : unhashableIn? names = none)
    {name : Value} (hname : name ∈ names) : name.unhashable? = none := by
  induction names with
  | nil => cases hname
  | cons first names ih =>
      rw [unhashableIn?, Option.or_eq_none_iff] at h
      rcases List.mem_cons.1 hname with rfl | hlater
      · exact h.1
      · exact ih h.2 hlater

theorem Value.pathOf?_map_text (path : JoinPath) :
    JoinSet.pathOf? (path.map .text) = some path := by
  induction path with
  | nil => rfl
  | cons name path ih => exact pathOf?_cons_eq_some_iff.2 ⟨name, path, rfl, ih, rfl⟩

namespace JoinSet

/-- A call that adds to a join set: one path, or one path after the other. -/
inductive Call where
  | add (path : List Value)
  | addAll (paths : List (List Value))

/-- The paths that a call adds. -/
def Call.paths : Call → List (List Value)
  | .add path => [path]
  | .addAll paths => paths

variable {M : Type} (S : Schema M)

/-- What a call leaves of a join set, and the fault if it fails. -/
def perform (joins : JoinSet M) : Call → JoinSet M × Option Fault
  | .add path => joins.add S path
  | .addAll paths => joins.addAll S paths

/-- What a sequence of calls leaves of a join set; a call that fails leaves what it has joined. -/
def after (joins : JoinSet M) (history : List Call) : JoinSet M :=
  history.foldl (fun joins call => (joins.perform S call).1) joins

/-- No call of a sequence fails. -/
def Completes (joins : JoinSet M) (history : List Call) : Prop :=
  ∀ earlier call later, history = earlier ++ call :: later →
    ((joins.after S earlier).perform S call).2 = none

/-- The order that a join set of a model keeps: no path is joined twice, a path is joined after its
parent, and along every path it knows the model that the schema leads to. -/
structure Orderly (model : M) (joins : JoinSet M) : Prop where
  once : joins.paths.Nodup
  closed : ∀ path ∈ joins.paths, ∀ parents, parents <+: path →
    parents = [] ∨ parents ∈ joins.paths
  parentsFirst : ∀ before path later, joins.paths = before ++ path :: later →
    path ≠ [] ∧ (path.dropLast = [] ∨ path.dropLast ∈ before)
  resolved : ∀ path, path = [] ∨ path ∈ joins.paths → ∃ reached,
    S.follow model path = some reached ∧
    ∀ names, pathOf? names = some path → joins.modelFor names = .ok reached

/-- How adding a path fails: the names before some name lead to a model that lacks a relationship of
this name. Their paths are joined, and what was joined before stays in front of what is new. -/
structure Stops (model : M) (joins : JoinSet M) (names : List Value) (fault : Fault)
    (stopped : JoinSet M) : Prop where
  first : ∃ found name rest path reached, names = found ++ name :: rest ∧
    pathOf? found = some path ∧ S.follow model path = some reached ∧
    (∀ r, S.relationship reached name ≠ .ok r) ∧
    fault = .noRelationship (S.model reached).name name
  added : ∃ added, stopped = { joins with joined := joins.joined ++ added } ∧
    ∀ path, path ∈ added.map (·.path) ↔ path ∉ joins.paths ∧ path ≠ [] ∧
      ∃ initial, initial <+: names ∧ initial ≠ names ∧ pathOf? initial = some path ∧
        ∃ reached, S.follow model path = some reached

variable {S} {joins : JoinSet M} {model : M}

/-! ## Sequences of calls -/

theorem perform_eq_addAll (joins : JoinSet M) (call : Call) :
    joins.perform S call = joins.addAll S call.paths := by
  cases call with
  | addAll paths => rfl
  | add path =>
      simp only [perform, Call.paths, addAll]
      cases joins.add S path with
      | mk added fault => cases fault <;> rfl

theorem after_cons (joins : JoinSet M) (call : Call) (history : List Call) :
    joins.after S (call :: history) = (joins.perform S call).1.after S history := rfl

theorem after_frame (joins : JoinSet M) (history : List Call) :
    ∃ joined, joins.after S history = { joins with joined := joined } := by
  induction history generalizing joins with
  | nil => exact ⟨joins.joined, rfl⟩
  | cons call history ih =>
      obtain ⟨first, hfirst⟩ := addAll_frame (S := S) call.paths joins
      obtain ⟨second, hsecond⟩ := ih (joins.perform S call).1
      refine ⟨second, ?_⟩
      rw [after_cons, hsecond, perform_eq_addAll, hfirst]

theorem Sound.after (h : joins.Sound S) (history : List Call) :
    (joins.after S history).Sound S := by
  induction history generalizing joins with
  | nil => exact h
  | cons call history ih =>
      rw [after_cons, perform_eq_addAll]
      exact ih (h.addAll call.paths)

theorem joined_initial_after (joins : JoinSet M) (history : List Call) :
    joins.joined <+: (joins.after S history).joined := by
  induction history generalizing joins with
  | nil => exact List.prefix_refl _
  | cons call history ih =>
      rw [after_cons, perform_eq_addAll]
      exact (joined_initial_addAll call.paths joins).trans (ih _)

theorem completes_nil (joins : JoinSet M) : joins.Completes S [] := by
  intro earlier call later heq
  simp at heq

theorem completes_cons {call : Call} {history : List Call} :
    joins.Completes S (call :: history) ↔
      (joins.perform S call).2 = none ∧ (joins.perform S call).1.Completes S history := by
  constructor
  · intro h
    refine ⟨h [] call history rfl, fun earlier next later heq => ?_⟩
    exact h (call :: earlier) next later (by rw [heq, List.cons_append])
  · rintro ⟨hcall, hrest⟩ earlier next later heq
    cases earlier with
    | nil =>
        obtain ⟨rfl, -⟩ := List.cons.inj heq
        exact hcall
    | cons first earlier =>
        obtain ⟨rfl, htail⟩ := List.cons.inj heq
        exact hrest earlier next later htail

/-- Calls that succeed amount to one call with all their paths. -/
theorem Completes.addAll_eq {history : List Call} (h : joins.Completes S history) :
    joins.addAll S (history.flatMap Call.paths) = (joins.after S history, none) := by
  induction history generalizing joins with
  | nil => rfl
  | cons call history ih =>
      obtain ⟨hfault, hrest⟩ := completes_cons.1 h
      have hcall : joins.addAll S call.paths = ((joins.perform S call).1, none) := by
        rw [← perform_eq_addAll, ← hfault]
      rw [List.flatMap_cons, addAll_append hcall, ih hrest, after_cons]

/-- Calls that succeed join the parts of the paths they add, in whatever order they come. -/
theorem Completes.mem_paths {history : List Call} (h : joins.Completes S history)
    (path : JoinPath) :
    path ∈ (joins.after S history).paths ↔ path ∈ joins.paths ∨ path ≠ [] ∧
      ∃ call ∈ history, ∃ names ∈ call.paths, ∃ longer, pathOf? names = some longer ∧
        path <+: longer := by
  rw [mem_paths_addAll h.addAll_eq]
  apply or_congr_right
  constructor
  · rintro ⟨names, hnames, longer, hlonger, hpath, hinitial⟩
    obtain ⟨call, hcall, hadded⟩ := List.mem_flatMap.1 hnames
    exact ⟨hpath, call, hcall, names, hadded, longer, hlonger, hinitial⟩
  · rintro ⟨hpath, call, hcall, names, hadded, longer, hlonger, hinitial⟩
    exact ⟨names, List.mem_flatMap.2 ⟨call, hcall, hadded⟩, longer, hlonger, hpath, hinitial⟩

/-! ## The order of what is joined -/

theorem Grown.parents_closed {joined : List (Joined M)} (h : Grown S model joined)
    {path parents : JoinPath} (hpath : path ∈ joined.map (·.path)) (hinitial : parents <+: path) :
    parents = [] ∨ parents ∈ joined.map (·.path) := by
  induction h generalizing path with
  | nil => cases hpath
  | @snoc joined before parent r _ _ _ hbefore _ ih =>
      rw [List.map_append, List.mem_append] at hpath ⊢
      rcases hpath with hold | hnew
      · exact (ih hold hinitial).imp_right .inl
      · rw [List.mem_singleton.1 hnew] at hinitial
        rcases List.prefix_concat_iff.1 hinitial with rfl | hshorter
        · exact .inr (.inr (by simp))
        · rcases hbefore with rfl | hjoined
          · exact .inl (List.prefix_nil.1 hshorter)
          · exact (ih hjoined hshorter).imp_right .inl

theorem Sound.find?_eq_some_iff (h : joins.Sound S) {path : JoinPath} {j : Joined M} :
    joins.find? path = some j ↔ j ∈ joins.joined ∧ j.path = path := by
  refine ⟨find?_eq_some, ?_⟩
  rintro ⟨hj, rfl⟩
  cases hfind : joins.find? j.path with
  | none => exact absurd (List.mem_map_of_mem hj) (find?_eq_none_iff.1 hfind)
  | some k =>
      obtain ⟨hk, hpath⟩ := find?_eq_some hfind
      rw [Grown.unique h h hk hj hpath]

/-- The model of a path is the one that the schema leads to. -/
theorem Sound.modelFor_eq (h : joins.Sound S) {path : JoinPath}
    (hpath : path = [] ∨ path ∈ joins.paths) {names : List Value}
    (hnames : pathOf? names = some path) :
    ∃ reached, S.follow joins.model path = some reached ∧ joins.modelFor names = .ok reached := by
  cases names with
  | nil =>
      obtain rfl := Option.some.inj hnames
      exact ⟨joins.model, rfl, rfl⟩
  | cons name names =>
      obtain ⟨text, rest, -, -, rfl⟩ := Value.pathOf?_cons_eq_some_iff.1 hnames
      obtain ⟨j, hj, heq⟩ := List.mem_map.1 (hpath.resolve_left (by simp))
      have hfind := h.find?_eq_some_iff.2 ⟨hj, heq⟩
      refine ⟨j.relationship.target, heq ▸ h.follow_path hj, ?_⟩
      simp [modelFor, findValues, Value.unhashableIn?_of_pathOf? hnames, hnames, hfind,
        bind, Except.bind]

theorem Sound.orderly (h : joins.Sound S) : Orderly S joins.model joins where
  once := h.nodup
  closed path hpath parents := Grown.parents_closed h hpath
  parentsFirst before path later heq := by
    obtain ⟨earlier, rest, hjoined, rfl, hrest⟩ := List.map_eq_append_iff.1 heq
    obtain ⟨j, others, rfl, rfl, -⟩ := List.map_eq_cons_iff.1 hrest
    exact ⟨h.path_ne_nil (heq ▸ by simp), Grown.parents_first h hjoined⟩
  resolved path hpath := by
    obtain ⟨reached, hreached, -⟩ := h.modelFor_eq hpath (Value.pathOf?_map_text path)
    refine ⟨reached, hreached, fun names hnames => ?_⟩
    obtain ⟨reached', hreached', hmodel⟩ := h.modelFor_eq hpath hnames
    rw [hmodel, Option.some.inj (hreached'.symm.trans hreached)]

/-- The entity that stands for a path stays the same, whatever is joined later. -/
theorem Sound.aliasFor_after (h : joins.Sound S) {history : List Call} {names : List Value}
    {source : Source M} (hsource : joins.aliasFor names = .ok source) :
    (joins.after S history).aliasFor names = .ok source := by
  obtain ⟨joined, hframe⟩ := after_frame (S := S) joins history
  have hwithin : joins.Within (joins.after S history) := by
    refine ⟨?_, ?_, (joined_initial_after joins history).subset⟩ <;> rw [hframe]
  unfold aliasFor at hsource ⊢
  split at hsource
  · cases hsource
  · cases hsource
  · exact hwithin.sourceFor h (h.after history) hsource

/-! ## Paths that cannot be added -/

/-- Going on along names fails at a name that is no relationship, and before that it is what going
on along the names before is. -/
theorem extend_stops {names : List Value} {done : JoinPath} {fault : Fault} {stopped : JoinSet M}
    (h : extend S done model names joins = (stopped, some fault)) :
    ∃ found name rest path reached, names = found ++ name :: rest ∧ pathOf? found = some path ∧
      S.follow model path = some reached ∧ S.relationship reached name = .error fault ∧
      extend S done model found joins = (stopped, none) := by
  induction names generalizing done model joins with
  | nil => cases h
  | cons name names ih =>
      rw [extend] at h
      cases hr : S.relationship model name with
      | error cause =>
          rw [hr] at h
          cases h
          exact ⟨[], name, names, [], model, rfl, rfl, rfl, hr, rfl⟩
      | ok r =>
          rw [hr] at h
          obtain ⟨found, next, rest, path, reached, rfl, hpath, hfollow, herror, hfound⟩ := ih h
          obtain ⟨text, htext, htarget⟩ := Schema.relationship_eq_ok_iff.1 hr
          refine ⟨name :: found, next, rest, text :: path, reached, rfl, ?_, ?_, herror, ?_⟩
          · exact Value.pathOf?_cons_eq_some_iff.2 ⟨text, path, htext, hpath, rfl⟩
          · rw [Schema.follow, htarget]
            exact hfollow
          · rw [extend, hr]
            exact hfound

/-- The parts of a path are written by the names it starts with. -/
theorem initial_iff_of_pathOf? {names : List Value} {longer path : JoinPath}
    (h : pathOf? names = some longer) :
    path <+: longer ↔ ∃ initial, initial <+: names ∧ pathOf? initial = some path := by
  induction names generalizing longer path with
  | nil =>
      obtain rfl : [] = longer := Option.some.inj h
      constructor
      · intro hinitial
        obtain rfl := List.prefix_nil.1 hinitial
        exact ⟨[], List.nil_prefix, rfl⟩
      · rintro ⟨initial, hinitial, hpath⟩
        obtain rfl := List.prefix_nil.1 hinitial
        obtain rfl : [] = path := Option.some.inj hpath
        exact List.nil_prefix
  | cons name names ih =>
      obtain ⟨text, rest, htext, hrest, rfl⟩ := Value.pathOf?_cons_eq_some_iff.1 h
      cases path with
      | nil => exact iff_of_true List.nil_prefix ⟨[], List.nil_prefix, rfl⟩
      | cons first path =>
          rw [List.cons_prefix_cons, ih hrest]
          constructor
          · rintro ⟨rfl, initial, hinitial, hpath⟩
            exact ⟨name :: initial, List.cons_prefix_cons.2 ⟨rfl, hinitial⟩,
              Value.pathOf?_cons_eq_some_iff.2 ⟨first, path, htext, hpath, rfl⟩⟩
          · rintro ⟨initial, hinitial, hpath⟩
            cases initial with
            | nil => cases hpath
            | cons head initial =>
                obtain ⟨rfl, hshorter⟩ := List.cons_prefix_cons.1 hinitial
                obtain ⟨_, _, hhead, hpath, heq⟩ := Value.pathOf?_cons_eq_some_iff.1 hpath
                obtain ⟨rfl, rfl⟩ := List.cons.inj heq
                exact ⟨Option.some.inj (hhead.symm.trans htext), initial, hshorter, hpath⟩

/-- Names that can be followed end before a name that is no relationship. -/
theorem initial_of_joinable {found initial rest : List Value} {name : Value} {path : JoinPath}
    {reached : M} (hfound : pathOf? found = some path)
    (hreached : S.follow model path = some reached)
    (hname : ∀ r, S.relationship reached name ≠ .ok r)
    (hinitial : initial <+: found ++ name :: rest) (hjoinable : S.Joinable model initial) :
    initial <+: found := by
  induction found generalizing model initial path with
  | nil =>
      obtain rfl := Option.some.inj hfound
      obtain rfl := Option.some.inj hreached
      cases initial with
      | nil => exact List.prefix_refl _
      | cons first initial =>
          obtain ⟨rfl, -⟩ := List.cons_prefix_cons.1 hinitial
          obtain ⟨r, hr, -⟩ := Schema.joinable_cons.1 hjoinable
          exact absurd hr (hname r)
  | cons first found ih =>
      cases initial with
      | nil => exact List.nil_prefix
      | cons head initial =>
          obtain ⟨rfl, hshorter⟩ := List.cons_prefix_cons.1 hinitial
          obtain ⟨text, path, htext, hpath, rfl⟩ := Value.pathOf?_cons_eq_some_iff.1 hfound
          obtain ⟨r, hr, hfollow⟩ := Option.bind_eq_some_iff.1 hreached
          obtain ⟨r', hr', hjoinable⟩ := Schema.joinable_cons.1 hjoinable
          have hsame := Schema.relationship_eq_ok_iff.2 ⟨text, htext, hr⟩
          obtain rfl := Except.ok.inj (hsame.symm.trans hr')
          exact List.cons_prefix_cons.2 ⟨rfl, ih hpath hfollow hshorter hjoinable⟩

/-- The parts of a path that end before a name that is no relationship are those that lead to a
model. -/
theorem initial_iff_followed {found rest : List Value} {name : Value} {parents : JoinPath}
    {reached : M} (hfound : pathOf? found = some parents)
    (hreached : S.follow model parents = some reached)
    (hname : ∀ r, S.relationship reached name ≠ .ok r) {path : JoinPath} :
    path <+: parents ↔ ∃ initial, initial <+: found ++ name :: rest ∧
      initial ≠ found ++ name :: rest ∧ pathOf? initial = some path ∧
      ∃ target, S.follow model path = some target := by
  constructor
  · intro hpath
    obtain ⟨initial, hinitial, hwritten⟩ := (initial_iff_of_pathOf? hfound).1 hpath
    refine ⟨initial, hinitial.trans (List.prefix_append _ _), ?_, hwritten, ?_⟩
    · rintro rfl
      have hlength := hinitial.length_le
      rw [List.length_append, List.length_cons] at hlength
      omega
    · obtain ⟨later, rfl⟩ := hpath
      rw [Schema.follow_append] at hreached
      obtain ⟨target, htarget, -⟩ := Option.bind_eq_some_iff.1 hreached
      exact ⟨target, htarget⟩
  · rintro ⟨initial, hinitial, -, hwritten, hfollow⟩
    have hbefore := initial_of_joinable hfound hreached hname hinitial ⟨path, hwritten, hfollow⟩
    exact (initial_iff_of_pathOf? hfound).2 ⟨initial, hbefore, hwritten⟩

/-- A path that cannot be added is joined as far as its relationships exist. -/
theorem Sound.stops (h : joins.Sound S) {names : List Value} {fault : Fault}
    (hnames : Value.unhashableIn? names = none) (hfault : (joins.add S names).2 = some fault) :
    Stops S joins.model joins names fault (joins.add S names).1 := by
  have hadd : joins.add S names = JoinSet.extend S [] joins.model names joins := by
    simp only [JoinSet.add, hnames]
  have hstopped : JoinSet.extend S [] joins.model names joins =
      ((joins.add S names).1, some fault) := by
    rw [← hadd, ← hfault]
  obtain ⟨found, name, rest, parents, reached, hsplit, hfound, hreached, herror, hextend⟩ :=
    extend_stops hstopped
  have hlacks : ∀ r, S.relationship reached name ≠ .ok r := by simp [herror]
  refine ⟨⟨found, name, rest, parents, reached, hsplit, hfound, hreached, hlacks, ?_⟩, ?_⟩
  · apply Schema.relationship_eq_error _ herror
    exact Value.unhashable?_of_mem hnames (hsplit ▸ List.mem_append_right _ List.mem_cons_self)
  obtain ⟨joined, hframe⟩ := add_frame (S := S) joins names
  obtain ⟨added, rfl⟩ : joins.joined <+: joined := by
    have hkept := joined_initial_extend (S := S) found [] joins.model joins
    rwa [hextend, hframe] at hkept
  obtain ⟨path, hpath, hmem⟩ := mem_paths_extend hextend
  obtain rfl := Option.some.inj (hpath.symm.trans hfound)
  refine ⟨added, hframe, fun p => ?_⟩
  have hafter : (joins.add S names).1.paths = joins.paths ++ added.map (·.path) := by
    rw [hframe, paths, List.map_append, paths]
  have honce : (joins.paths ++ added.map (·.path)).Nodup := hafter ▸ (h.add names).nodup
  have hjoined : p ∈ joins.paths ++ added.map (·.path) ↔
      p ∈ joins.paths ∨ p ≠ [] ∧ p <+: path := by
    rw [← hafter, hmem]
    simp
  rw [hsplit, ← initial_iff_followed hfound hreached hlacks]
  constructor
  · intro hp
    have hfresh : p ∉ joins.paths := fun hold => (List.nodup_append.1 honce).2.2 p hold p hp rfl
    exact ⟨hfresh, (hjoined.1 (List.mem_append_right _ hp)).resolve_left hfresh⟩
  · rintro ⟨hfresh, hinitial⟩
    exact (List.mem_append.1 (hjoined.2 (.inr hinitial))).resolve_left hfresh

/-! ## Every history -/

/-- After any sequence of calls, some of which may fail, what is joined is in good order. If none
fails, joined are the paths that were added and their parents, nothing else. Whatever is called
later, a joined path keeps its place and its entity; and a path that cannot be added says at which
relationship of which model it breaks off, and is joined up to there. -/
theorem orderly_after (S : Schema M) (model : M) (reflector : Reflector M) (scope : Nat)
    (history : List Call) :
    let start := empty model reflector scope
    let joins := start.after S history
    joins.Orderly S model ∧
    (start.Completes S history → ∀ path, path ∈ joins.paths ↔ path ≠ [] ∧
      ∃ call ∈ history, ∃ names ∈ call.paths, ∃ longer, pathOf? names = some longer ∧
        path <+: longer) ∧
    (∀ later, joins.paths <+: (joins.after S later).paths ∧
      ∀ names source, joins.aliasFor names = .ok source →
        (joins.after S later).aliasFor names = .ok source) ∧
    ∀ names fault, Value.unhashableIn? names = none → (joins.add S names).2 = some fault →
      joins.Stops S model names fault (joins.add S names).1 := by
  intro start joins
  have hsound : joins.Sound S := (Sound.empty model reflector scope).after history
  have hmodel : joins.model = model := by
    obtain ⟨joined, hframe⟩ := after_frame (S := S) start history
    exact congrArg JoinSet.model hframe
  refine ⟨hmodel ▸ hsound.orderly, fun hcompletes path => ?_, fun later => ⟨?_, ?_⟩,
    fun names fault hnames hfault => hmodel ▸ hsound.stops hnames hfault⟩
  · rw [hcompletes.mem_paths]
    simp [start, empty, paths]
  · exact (joined_initial_after joins later).map _
  · exact fun names source => hsound.aliasFor_after

open Sample in
/-- The organization of the author is joined first, so that the author is there when it is added in
turn. A path to the ratings of the author's posts breaks off at the posts, which are joined. -/
theorem orderly_after_author :
    let start := empty Entity.post .empty 0
    let history : List Call :=
      [.addAll [[.text "author", .text "organization"], []], .add [.text "author"]]
    let joins := start.after schema history
    let ratings : List Value := [.text "author", .text "posts", .text "rating", .text "stars"]
    start.Completes schema history ∧
      joins.paths = [["author"], ["author", "organization"]] ∧
      (["author"] ∈ joins.paths ↔ ["author"] ≠ [] ∧
        ∃ call ∈ history, ∃ names ∈ call.paths, ∃ longer, pathOf? names = some longer ∧
          ["author"] <+: longer) ∧
      Value.unhashableIn? ratings = none ∧
      (joins.add schema ratings).1.paths =
        [["author"], ["author", "organization"], ["author", "posts"]] ∧
      (joins.add schema ratings).2 = some (.noRelationship "Post" (.text "rating")) ∧
      joins.Stops schema .post ratings (.noRelationship "Post" (.text "rating"))
        (joins.add schema ratings).1 := by
  intro start history joins ratings
  obtain ⟨-, hmem, -, hstops⟩ := orderly_after schema Entity.post .empty 0 history
  have hcompletes : start.Completes schema history :=
    completes_cons.2 ⟨rfl, completes_cons.2 ⟨rfl, completes_nil _⟩⟩
  exact ⟨hcompletes, rfl, hmem hcompletes ["author"], rfl, rfl, rfl, hstops ratings _ rfl rfl⟩

end JoinSet

end RowAccess
