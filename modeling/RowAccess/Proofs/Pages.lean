import RowAccess.Proofs.CellOrder
import RowAccess.Proofs.CountedRows
import RowAccess.Proofs.RowSelection
/-!
# Pages of a listing

A statement that lists a model in the order of its primary key and stops after some rows. The
limit takes effect last, after the joins, the filters and the removal of repeated rows. So when
the statement is restricted, its page is a page of the rows that are left: it is not cut short by
rows that the filters drop, nor filled up by rows that the joins repeat. The limit is handed to the
database like any value, so a statement can be run with it only if it fits into 64 bits.
-/

namespace RowAccess

variable {M : Type}

/-- A statement in the order of the primary key of a model, with a limit. -/
def Select.paged (S : Schema M) (model : M) (n : Nat) (s : Select M) : Select M :=
  { s with order := Selected.keyOf S (.own model), limit := some n }

/-- The statement that lists the first rows of a model by primary key. -/
def Select.page (S : Schema M) (model : M) (n : Nat) : Select M :=
  (Select.ofModel model).paged S model n

/-- The primary key of a result row that stands for a row of a model. -/
def rowKey : List (Field M) → List Cell
  | .row _ key :: _ => key
  | _ => []

/-- Result rows in the order of their primary keys. -/
def byKey (rows : List (List (Field M))) : List (List (Field M)) :=
  rows.mergeSort fun r r' => !Cell.lessThan (rowKey r') (rowKey r)

/-- What a page of a listing is: the first rows of the listing by primary key, as many as asked for
or else all there are, and none of them twice. -/
structure IsPage (n : Nat) (rows page : List (List (Field M))) : Prop where
  first : ∃ sorted : List (List (Field M)), sorted.Perm rows ∧
    (sorted.Pairwise fun r r' => Cell.lessThan (rowKey r') (rowKey r) = false) ∧
      page = sorted.take n
  length : page.length = min n rows.length
  nodup : page.Nodup

theorem byKey_perm (rows : List (List (Field M))) : (byKey rows).Perm rows :=
  List.mergeSort_perm _ _

theorem isPage_byKey {rows : List (List (Field M))} (hnodup : rows.Nodup)
    (hsettled : ∀ r ∈ rows, ∀ c ∈ rowKey r, c.Settled) (n : Nat) :
    IsPage n rows ((byKey rows).take n) where
  first := ⟨byKey rows, byKey_perm rows, pairwise_mergeSort_lessThan hsettled, rfl⟩
  length := by rw [List.length_take, (byKey_perm rows).length_eq]
  nodup := ((byKey_perm rows).nodup_iff.2 hnodup).sublist (List.take_sublist n _)

/-- The rows of a model are told apart by primary keys that can be ordered. -/
structure Database.Keyed (db : Database M) (S : Schema M) (model : M) : Prop where
  unique : ((db.rows model).map (S.keyCells model)).Nodup
  settled : ∀ x ∈ db.rows model, ∀ c ∈ S.keyCells model x, c.Settled

namespace Select

variable {S : Schema M} {db : Database M} {s : Select M} {model : M}

/-- Assignments in the order of the primary key yield result rows in that order. -/
theorem map_ordered_paged (hselected : s.selected = [.model model]) (n : Nat)
    (found : List (Assignment M)) :
    ((s.paged S model n).ordered found).map (s.fields S (fun _ => 0) 0) =
      byKey (found.map (s.fields S (fun _ => 0) 0)) := by
  have hkey : ∀ a, rowKey (s.fields S (fun _ => 0) 0 a) =
      (Selected.keyOf S (.own model)).map a.read := by
    intro a
    rw [fields, hselected]
    rfl
  rw [ordered, byKey]
  split
  · -- Without key columns nothing is ordered, and by keys without cells nothing is either.
    rename_i hempty
    have hnone : Selected.keyOf S (.own model) = [] := by simpa [paged] using hempty
    have hsorted : (found.map (s.fields S (fun _ => 0) 0)).Pairwise fun r r' =>
        (!Cell.lessThan (rowKey r') (rowKey r)) = true := by
      rw [List.pairwise_map]
      exact List.pairwise_of_forall fun a b => by rw [hkey, hkey, hnone]; rfl
    exact (List.mergeSort_of_pairwise hsorted).symm
  · exact List.map_mergeSort fun a _ b _ => by simp only [hkey]; rfl

/-- A limit takes its rows from what the statement lists without it. -/
theorem resultOf_paged (hselected : s.selected = [.model model]) (horder : s.order = [])
    (hlimit : s.limit = none) (n : Nat) (found : List (Assignment M)) :
    (s.paged S model n).resultOf S found = (byKey (s.resultOf S found)).take n := by
  have hcounts := counts_of_model hselected
  have hlisted : s.resultOf S found =
      (s.withoutRepetitions S found).map (s.fields S (fun _ => 0) 0) := by
    simp [resultOf, hcounts, limited, hlimit, ordered, horder]
  have hpaged : (s.paged S model n).resultOf S found =
      (((s.paged S model n).ordered (s.withoutRepetitions S found)).take n).map
        (s.fields S (fun _ => 0) 0) := by
    have hlimited : ∀ xs : List (Assignment M), (s.paged S model n).limited xs = xs.take n := by
      intro xs
      simp [limited, paged]
    have hpagedCounts : (s.paged S model n).counts = false := hcounts
    rw [resultOf, hpagedCounts, if_neg Bool.false_ne_true, hlimited]
    rfl
  rw [hpaged, List.map_take, map_ordered_paged hselected, hlisted]

/-- The database takes a limit that fits into 64 bits. -/
theorem checkLimit_paged_iff {n : Nat} :
    (s.paged S model n).checkLimit = .ok () ↔ n < 2 ^ 63 := by
  have hcheck : (s.paged S model n).checkLimit = (Binding.integer n).map fun _ => () := rfl
  have hfits : -Int.pow 2 63 ≤ (n : Int) ∧ (n : Int) < Int.pow 2 63 ↔ n < 2 ^ 63 := by
    have hpow : Int.pow 2 63 = 2 ^ 63 := rfl
    omega
  rw [hcheck, ← hfits, Binding.integer.eq_def]
  split
  case isTrue h => exact iff_of_true rfl h
  case isFalse h => exact iff_of_false (by rintro ⟨⟩) h

variable [DecidableEq M] {rows found : List (List (Field M))}

/-- Whatever keeps the statement from being run keeps its pages from it, and so does a limit that is
too large. Nothing else does. -/
theorem run_paged_eq_ok_iff (hselected : s.selected = [.model model]) (horder : s.order = [])
    (hlimit : s.limit = none) {n : Nat} :
    (s.paged S model n).run S db = .ok found ↔
      n < 2 ^ 63 ∧ ∃ rows, s.run S db = .ok rows ∧ (byKey rows).take n = found := by
  have hchains : Layout.chains (s.paged S model n) = Layout.chains s := rfl
  have hsatisfying : ∀ chains,
      (s.paged S model n).satisfying db chains = s.satisfying db chains := fun _ => rfl
  have htaken : (s.paged S model n).Taken ↔ s.Taken := Iff.rfl
  have hunlimited := checkLimit_of_none hlimit
  simp only [run_eq_ok_iff, checkLimit_paged_iff, hchains, hsatisfying, htaken,
    resultOf_paged hselected horder hlimit]
  constructor
  · rintro ⟨chains, hlaid, hvalues, hfits, rfl⟩
    exact ⟨hfits, _, ⟨chains, hlaid, hvalues, hunlimited, rfl⟩, rfl⟩
  · rintro ⟨hfits, rows, ⟨chains, hlaid, hvalues, -, rfl⟩, rfl⟩
    exact ⟨chains, hlaid, hvalues, hfits, rfl⟩

/-- Of two statements that come of a restriction, the second lists a page of what the first lists:
it comes back if the first does, it can be run exactly if the first can and the database takes the
limit, and it yields the first rows. -/
def Pages (S : Schema M) (db : Database M) (n : Nat) (listed paged : Except Fault (Select M)) :
    Prop :=
  ∀ s, listed = .ok s → ∃ t, paged = .ok t ∧
    ((∃ page, t.run S db = .ok page) ↔ (∃ rows, s.run S db = .ok rows) ∧ n < 2 ^ 63) ∧
      ∀ rows page, s.run S db = .ok rows → t.run S db = .ok page → IsPage n rows page

/-- A statement on one root can be run page by page exactly if it can be run and the limit fits. -/
theorem OnRoot.exists_run_paged_iff {joins : JoinSet M} (h : s.OnRoot S joins)
    (horder : s.order = []) {n : Nat} :
    (∃ page, (s.paged S joins.model n).run S db = .ok page) ↔
      (∃ rows, s.run S db = .ok rows) ∧ n < 2 ^ 63 := by
  simp only [run_paged_eq_ok_iff h.selected horder h.limit]
  constructor
  · rintro ⟨page, hfits, rows, hrows, -⟩
    exact ⟨⟨rows, hrows⟩, hfits⟩
  · rintro ⟨⟨rows, hrows⟩, hfits⟩
    exact ⟨_, hfits, rows, hrows, rfl⟩

/-- A statement on one root without repetitions, page by page. -/
theorem OnRoot.isPage_run_paged {joins : JoinSet M} (h : s.OnRoot S joins) (horder : s.order = [])
    (hdistinct : s.distinct = true) (hkeyed : db.Keyed S joins.model) {n : Nat}
    (hrows : s.run S db = .ok rows) (hpage : (s.paged S joins.model n).run S db = .ok found) :
    IsPage n rows found := by
  obtain ⟨-, listed, hlisted, rfl⟩ := (run_paged_eq_ok_iff h.selected horder h.limit).1 hpage
  obtain rfl := Except.ok.inj (hrows.symm.trans hlisted)
  refine isPage_byKey (h.nodup_run hdistinct hkeyed.unique hrows) (fun r hr => ?_) n
  obtain ⟨x, hx, -, rfl⟩ := (h.mem_run hrows).1 hr
  exact hkeyed.settled x hx

/-- A model whose rows have keys, restricted so that repeated rows are dropped, be it to what is
accessible or by a list of rules: the statement that asks for a page of the model is restricted to
that page of what the model is restricted to. It can be run exactly if what lists the model can and
the limit fits into 64 bits. -/
theorem pages_restricted (hkeyed : db.Keyed S model) (n : Nat) :
    (∀ q : Request M, q.config.distinct.truthy = true →
      Pages S db n (q.accessible S (.ofModel model)).result
        (q.accessible S (.page S model n)).result) ∧
    ∀ (rules : List Rule) (reflector : Reflector M),
      Pages S db n ((ofModel model).applyRules S model rules reflector true)
        ((page S model n).applyRules S model rules reflector true) := by
  constructor
  · intro q hdistinct s hs
    obtain ⟨part, hpart, rfl⟩ := (Request.accessible_single_iff rfl).1 hs
    have hroot := hpart.onRoot_listing (q.config.distinct.truthy || false)
    have hmodel : part.joins.model = model := hpart.frame.1
    have hpaged := (Request.accessible_single_iff (q := q) (S := S) (s := page S model n) rfl).2
      ⟨part, hpart, rfl⟩
    refine ⟨_, hpaged, ?_⟩
    subst hmodel
    exact ⟨hroot.exists_run_paged_iff rfl, fun rows page hrows hpage =>
      hroot.isPage_run_paged rfl (by simp [hdistinct]) hkeyed hrows hpage⟩
  · intro rules reflector s hs
    have hlisted : applyRules S { ofModel model with conditions := [] } model rules reflector true =
      .ok s := hs
    obtain ⟨joins, -, -, -, hroot, hmodel, -, hdistinct⟩ := onRoot_applyRules (by simp) hlisted
    obtain ⟨joined, restriction, hjoined, hcompile, rfl⟩ := applyRules_eq_ok_iff.1 hs
    refine ⟨_, applyRules_eq_ok_iff.2 ⟨joined, restriction, hjoined, hcompile, rfl⟩, ?_⟩
    subst hmodel
    exact ⟨hroot.exists_run_paged_iff rfl, fun rows page hrows hpage =>
      hroot.isPage_run_paged rfl hdistinct hkeyed hrows hpage⟩

end Select

/-- The rule that lets through what has a comment that is not flagged. -/
def Rule.calm : Rule :=
  ⟨.bool true, .plain [(.text "comments", .plain [(.text "flagged", .bool false)])], "calm posts"⟩

open Sample in
/-- A request to read the posts with a comment that is not flagged. -/
def Request.calmPosts (config : Config) : Request Entity where
  config := config
  registry := .ofRegistrations [⟨.post, .text "read", fun _ => .ok Rule.calm.conditions,
    Rule.calm.grants, Rule.calm.name, ""⟩]
  reflector := .empty
  actor := .nobody
  action := none

open Sample in
theorem Select.keyed_posts : database.Keyed schema .post where
  unique := Select.nodup_keyCells .post
  settled := by decide

open Sample in
/-- The first post has two such comments, but a page of two posts goes on to another. -/
theorem Select.pages_restricted_posts :
    (Request.calmPosts {}).config.distinct.truthy = true ∧
      (Request.calmPosts {}).resultRows schema database (.ofModel .post) =
        .ok [[.row .post [.int 1]], [.row .post [.int 3]], [.row .post [.int 6]]] ∧
      ∃ page, (Request.calmPosts {}).resultRows schema database (.page schema .post 2) = .ok page ∧
        IsPage 2 [[.row .post [.int 1]], [.row .post [.int 3]], [.row .post [.int 6]]] page := by
  have hlisted : ∃ s, ((Request.calmPosts {}).accessible schema (.ofModel .post)).result = .ok s :=
    ⟨_, rfl⟩
  have hrows : (Request.calmPosts {}).resultRows schema database (.ofModel .post) =
      .ok [[.row .post [.int 1]], [.row .post [.int 3]], [.row .post [.int 6]]] := rfl
  obtain ⟨s, hs⟩ := hlisted
  obtain ⟨t, ht, hruns, hpage⟩ :=
    (pages_restricted keyed_posts 2).1 (Request.calmPosts {}) rfl s hs
  have hrun := (Request.resultRows_eq_ok_iff hs).1 hrows
  obtain ⟨page, hfirst⟩ := hruns.2 ⟨⟨_, hrun⟩, by decide⟩
  exact ⟨rfl, hrows, page, (Request.resultRows_eq_ok_iff ht).2 hfirst, hpage _ _ hrun hfirst⟩

open Sample in
/-- Three posts have a comment that is not flagged, but the statement that asks for the first `2 ^
63` of them cannot be run. -/
theorem Select.page_beyond_bits :
    ∃ listed paged,
      (ofModel .post).applyRules schema .post [.calm] .empty true = .ok listed ∧
      listed.run schema database =
        .ok [[.row .post [.int 1]], [.row .post [.int 3]], [.row .post [.int 6]]] ∧
      (page schema .post (2 ^ 63)).applyRules schema .post [.calm] .empty true = .ok paged ∧
      paged.run schema database = .error .integerTooLarge :=
  ⟨_, _, rfl, rfl, rfl, rfl⟩

open Sample in
example : (Request.calmPosts {}).resultRows schema database (.page schema .post 2) =
    .ok [[.row .post [.int 1]], [.row .post [.int 3]]] := by
  cbv

end RowAccess
