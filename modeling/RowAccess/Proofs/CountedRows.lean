import RowAccess.Proofs.JoinedRowCounts
import RowAccess.Proofs.SeveralEntities
/-!
# Counting what is accessible

A statement that counts a model is restricted by the same joins and filters as one that lists it.
But the count runs over the joined rows, and dropping repetitions acts on its single result row, so
a row of the model is counted once for each combination of related rows that the filters admit.
-/

namespace RowAccess

/-- The statement that counts the rows of a model by one of its columns. -/
def Select.counting {M : Type} (model : M) (c : Column) : Select M :=
  { selected := [.count (some ⟨.own model, c⟩)] }

/-- How many elements have a positive weight, against the sum of the weights. -/
theorem length_filter_pos_le_sum {α : Type} (w : α → Nat) (xs : List α) :
    (xs.filter fun x => decide (0 < w x)).length ≤ (xs.map w).sum ∧
      ((xs.map w).sum = (xs.filter fun x => decide (0 < w x)).length ↔ ∀ x ∈ xs, w x ≤ 1) := by
  induction xs with
  | nil => simp
  | cons x xs ih =>
      obtain ⟨hle, hiff⟩ := ih
      rw [List.forall_mem_cons, ← hiff, List.map_cons, List.sum_cons]
      by_cases hx : 0 < w x
      · rw [List.filter_cons_of_pos (by simpa using hx), List.length_cons]
        omega
      · rw [List.filter_cons_of_neg (by simpa using hx)]
        omega

namespace Request

variable {M : Type} [DecidableEq M] {q : Request M} {S : Schema M} {db : Database M} {model : M}
  {s applied : Select M} {part : Part M}

/-- A statement that describes a single entity gets the part of that entity. -/
theorem accessible_single_iff {d : Described M}
    (hsingle : s.selected.filterMap Selected.described? = [d]) :
    (q.accessible S s).result = .ok applied ↔ ∃ part, q.Restricts S s.scopes d part ∧
      applied = { s.adding part with distinct := q.config.distinct.truthy || s.distinct } := by
  rw [accessible_result, hsingle, Success.map_eq_ok_iff]
  simp only [restrictToAll_eq_ok_iff]
  constructor
  · rintro ⟨after, ⟨parts, hruns, rfl⟩, rfl⟩
    obtain _ | ⟨hfirst, hrest⟩ := hruns
    obtain _ | _ := hrest
    refine ⟨_, hfirst, ?_⟩
    cases q.config.distinct.truthy <;> rfl
  · rintro ⟨part, hpart, rfl⟩
    refine ⟨_, ⟨[part], .cons hpart (.nil _), rfl⟩, ?_⟩
    cases q.config.distinct.truthy <;> rfl

/-- The part of a model in a statement that lists the model alone. -/
theorem Restricts.onRoot_listing (hpart : q.Restricts S 0 (.model model) part) (distinct : Bool) :
    Select.OnRoot S { (Select.ofModel model).adding part with distinct := distinct }
      part.joins where
  selected := by
    rw [hpart.frame.1]
    rfl
  attached := rfl
  limit := rfl
  sound := hpart.sound
  sources := hpart.source_mem

/-- The part of a model in a statement that counts the model alone. -/
theorem Restricts.onChain_counting (hpart : q.Restricts S 0 (.model model) part) (distinct : Bool)
    (c : Column) :
    { (Select.counting model c).adding part with distinct := distinct }.OnChain (.own model) where
  linked := by
    have hlinked := hpart.sound.linked
    rw [hpart.frame.1] at hlinked
    exact hlinked
  selected := rfl
  held := by
    intro f hf source hsource
    have hmem := hpart.source_mem f hf source hsource
    rw [hpart.frame.1] at hmem
    exact List.mem_cons.2 hmem

/-- A request that drops repetitions, for the rows of a model and for their number. Where the list
comes back and can be run, so does the count and so can it. The count is the sum of how often each
row is left, while the list has each of these rows once. So the count is never too small, it is the
number of rows exactly if no row is left more than once, and it is that number where all joined
relationships lead to one row at most. -/
theorem count_accessible_eq_sum {c : Column} (hdistinct : q.config.distinct.truthy = true)
    (hkeys : ((db.rows model).map (S.keyCells model)).Nodup)
    (hpresent : ∀ x ∈ db.rows model, c.cell (some x) ≠ .null)
    (hlisted : (q.accessible S (.ofModel model)).result = .ok applied) :
    (∃ counted, (q.accessible S (.counting model c)).result = .ok counted) ∧
    ((∃ table, q.resultRows S db (.counting model c) = .ok table) ↔
      ∃ rows, q.resultRows S db (.ofModel model) = .ok rows) ∧
    ∀ rows, q.resultRows S db (.ofModel model) = .ok rows →
      ∃ n : Nat, q.resultRows S db (.counting model c) = .ok [[.value (.int n)]] ∧
        n = ((db.rows model).map (applied.ways db (.own model))).sum ∧
        rows.length ≤ n ∧
        (n = rows.length ↔ ∀ x ∈ db.rows model, applied.ways db (.own model) x ≤ 1) ∧
        ((∀ j ∈ applied.joins, db.ToOne j) → n = rows.length) := by
  obtain ⟨part, hpart, rfl⟩ := (accessible_single_iff (d := .model model) rfl).1 hlisted
  have hcounted := (accessible_single_iff (q := q) (S := S) (s := .counting model c)
    (d := .model model) rfl).2 ⟨part, hpart, rfl⟩
  have hmodel : part.joins.model = model := hpart.frame.1
  have hroot := hpart.onRoot_listing (q.config.distinct.truthy || false)
  have hchain := hpart.onChain_counting (q.config.distinct.truthy || false) c
  have hruns : (∃ table, q.resultRows S db (.counting model c) = .ok table) ↔
      ∃ rows, q.resultRows S db (.ofModel model) = .ok rows := by
    simp only [resultRows_eq_ok_iff hcounted, resultRows_eq_ok_iff hlisted]
    refine Iff.trans ?_ (hroot.run_ok_iff db).symm
    constructor
    · rintro ⟨table, htable⟩
      exact ((hchain.run_eq_ok_iff rfl).1 htable).1
    · intro hvalues
      exact ⟨_, (hchain.run_eq_ok_iff rfl).2 ⟨hvalues, rfl⟩⟩
  refine ⟨⟨_, hcounted⟩, hruns, fun rows hrows => ?_⟩
  obtain ⟨table, htable⟩ := hruns.2 ⟨rows, hrows⟩
  -- Both statements have the joins and the filters of the part, so both leave a row as often.
  have hcount := hchain.run_count rfl rfl hpresent ((resultRows_eq_ok_iff hcounted).1 htable)
  have hlist := hroot.run_distinct_of_nodup rfl (by simp [hdistinct]) (hmodel.symm ▸ hkeys)
    ((resultRows_eq_ok_iff hlisted).1 hrows)
  rw [hmodel] at hlist
  obtain ⟨hle, hiff⟩ := length_filter_pos_le_sum
    (Select.ways { (Select.ofModel model).adding part with
      distinct := q.config.distinct.truthy || false } db (.own model)) (db.rows model)
  rw [← List.length_map (S.resultRow model), ← hlist] at hle hiff
  refine ⟨_, hcount ▸ htable, rfl, hle, hiff, fun hone => hiff.2 fun x hx => ?_⟩
  exact Select.ways_le_one_of_toOne hx hroot.target_model hone

open Sample in
/-- As many posts of admins as are listed: every post has one author at most. -/
theorem count_accessible_eq_sum_posts :
    ∃ rows, ∃ n : Nat,
      (Select.postsAndUsers {}).resultRows schema database (.ofModel .post) = .ok rows ∧
      (Select.postsAndUsers {}).resultRows schema database
        (.counting .post (column "id" .integer)) = .ok [[.value (.int n)]] ∧ n = rows.length := by
  obtain ⟨-, -, hcount⟩ := count_accessible_eq_sum (q := Select.postsAndUsers {}) (S := schema)
    (c := column "id" .integer) rfl (Select.nodup_keyCells .post)
    (by decide) rfl
  obtain ⟨n, hn, -, -, -, hequal⟩ := hcount _ rfl
  exact ⟨_, n, rfl, hn, hequal (by decide)⟩

open Sample in
/-- A request to read the posts with a certain comment. -/
def commentedPosts (config : Config) : Request Entity where
  config := config
  registry := .ofRegistrations [⟨.post, .text "read",
    fun _ => .ok (.plain [(.text "comments", .plain [(.text "body", .text "hm")])]), .bool true,
    "commented posts", ""⟩]
  reflector := .empty
  actor := .nobody
  action := none

open Sample in
/-- A single post has the comment, but has it twice, and is counted twice. -/
theorem count_accessible_inflated :
    (commentedPosts {}).config.distinct.truthy = true ∧
      ((database.rows .post).map (schema.keyCells .post)).Nodup ∧
      (∀ x ∈ database.rows .post, (column "id" .integer).cell (some x) ≠ .null) ∧
      (commentedPosts {}).resultRows schema database (.ofModel .post) =
        .ok [[.row .post [.int 6]]] ∧
      (commentedPosts {}).resultRows schema database (.counting .post (column "id" .integer)) =
        .ok [[.value (.int 2)]] :=
  ⟨rfl, Select.nodup_keyCells .post, by decide, rfl, rfl⟩

end Request

end RowAccess
