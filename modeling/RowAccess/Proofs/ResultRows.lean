import RowAccess.Proofs.ChainLayout
/-!
# The rows of a statement

Which rows a statement returns, as far as their order and number do not matter: those read off the
assignments that fill its sources and satisfy its conditions. Dropping repeated rows keeps one of
each.
-/

namespace RowAccess

/-! ## First occurrences -/

section FirstOccurrences

variable {α β : Type} [BEq β] [LawfulBEq β] {key : α → β}

theorem mem_of_mem_firstOccurrences {seen : List β} {xs : List α} {x : α}
    (h : x ∈ firstOccurrences key seen xs) : x ∈ xs ∧ key x ∉ seen := by
  induction xs generalizing seen with
  | nil => simp [firstOccurrences] at h
  | cons y ys ih =>
      unfold firstOccurrences at h
      split at h
      · obtain ⟨hmem, hseen⟩ := ih h
        exact ⟨by simp [hmem], hseen⟩
      · rename_i hfresh
        rcases List.mem_cons.1 h with rfl | h
        · exact ⟨by simp, by simpa using hfresh⟩
        · obtain ⟨hmem, hseen⟩ := ih h
          exact ⟨by simp [hmem], fun hs => hseen (by simp [hs])⟩

theorem exists_mem_firstOccurrences {seen : List β} {xs : List α} {x : α} (hx : x ∈ xs)
    (hseen : key x ∉ seen) : ∃ y ∈ firstOccurrences key seen xs, key y = key x := by
  induction xs generalizing seen with
  | nil => simp at hx
  | cons y ys ih =>
      unfold firstOccurrences
      by_cases hxy : key y = key x
      · have hfresh : ¬ seen.contains (key y) = true := by simpa [hxy] using hseen
        rw [if_neg hfresh]
        exact ⟨y, by simp, hxy⟩
      · have hxs : x ∈ ys := by
          rcases List.mem_cons.1 hx with rfl | hx
          · exact absurd rfl hxy
          · exact hx
        split
        · exact ih hxs hseen
        · have hfresh' : key x ∉ key y :: seen := by
            simp [hseen, Ne.symm hxy]
          obtain ⟨z, hz, heq⟩ := ih hxs hfresh'
          exact ⟨z, by simp [hz], heq⟩

theorem nodup_map_firstOccurrences (seen : List β) (xs : List α) :
    ((firstOccurrences key seen xs).map key).Nodup := by
  induction xs generalizing seen with
  | nil => simp [firstOccurrences]
  | cons y ys ih =>
      unfold firstOccurrences
      split
      · exact ih seen
      · rw [List.map_cons, List.nodup_cons]
        refine ⟨fun hmem => ?_, ih _⟩
        obtain ⟨z, hz, heq⟩ := List.mem_map.1 hmem
        exact (mem_of_mem_firstOccurrences hz).2 (by simp [heq])

omit [LawfulBEq β] in
theorem firstOccurrences_sublist (seen : List β) (xs : List α) :
    (firstOccurrences key seen xs).Sublist xs := by
  induction xs generalizing seen with
  | nil => exact .refl _
  | cons x xs ih =>
      rw [firstOccurrences]
      split
      · exact (ih seen).cons x
      · exact (ih _).cons_cons x

theorem mem_firstOccurrences_id_iff {seen xs : List β} {x : β} :
    x ∈ firstOccurrences id seen xs ↔ x ∈ xs ∧ x ∉ seen := by
  constructor
  · exact fun hx => mem_of_mem_firstOccurrences hx
  · rintro ⟨hx, hseen⟩
    have hfresh : id x ∉ seen := hseen
    obtain ⟨y, hy, heq : y = x⟩ := exists_mem_firstOccurrences hx hfresh
    exact heq ▸ hy

theorem nodup_firstOccurrences_id (seen xs : List β) : (firstOccurrences id seen xs).Nodup := by
  have hkeys : ((firstOccurrences id seen xs).map id).Nodup := nodup_map_firstOccurrences seen xs
  rwa [List.map_id] at hkeys

/-- Only which keys were seen matters, not in which order. -/
theorem firstOccurrences_congr {seen seen' : List β} (h : ∀ b, b ∈ seen ↔ b ∈ seen')
    (xs : List α) : firstOccurrences key seen xs = firstOccurrences key seen' xs := by
  induction xs generalizing seen seen' with
  | nil => rfl
  | cons x xs ih =>
      have hcontains : seen.contains (key x) = seen'.contains (key x) := by
        rw [Bool.eq_iff_iff, List.contains_iff_mem, List.contains_iff_mem, h]
      have hmore : ∀ b, b ∈ key x :: seen ↔ b ∈ key x :: seen' := by
        intro b
        rw [List.mem_cons, List.mem_cons, h]
      rw [firstOccurrences, firstOccurrences, hcontains, ih h, ih hmore]

/-- Where more keys were seen before, what has them is left out. -/
theorem firstOccurrences_append_seen (more seen : List β) (xs : List α) :
    firstOccurrences key (more ++ seen) xs =
      (firstOccurrences key seen xs).filter fun x => !more.contains (key x) := by
  induction xs generalizing seen with
  | nil => rfl
  | cons x xs ih =>
      rw [firstOccurrences, firstOccurrences]
      by_cases hseen : key x ∈ seen
      · simp [hseen, ih]
      · have hskip : firstOccurrences key (key x :: (more ++ seen)) xs =
            firstOccurrences key (more ++ key x :: seen) xs :=
          firstOccurrences_congr (by simp [or_left_comm]) xs
        by_cases hmore : key x ∈ more
        · have hsame : firstOccurrences key (more ++ seen) xs =
              firstOccurrences key (more ++ key x :: seen) xs := by
            refine firstOccurrences_congr (fun b => ?_) xs
            simp only [List.mem_append, List.mem_cons]
            refine ⟨fun h => h.imp_right .inr, fun h => h.elim .inl fun h => h.elim ?_ .inr⟩
            rintro rfl
            exact .inl hmore
          simp [hseen, hmore, hsame, ih]
        · simp [hseen, hmore, hskip, ih]

/-- What has been seen before adds nothing. -/
theorem firstOccurrences_append_of_seen {seen : List β} {xs ys : List α}
    (h : ∀ y ∈ ys, key y ∈ seen) :
    firstOccurrences key seen (xs ++ ys) = firstOccurrences key seen xs := by
  induction xs generalizing seen with
  | nil =>
      rw [List.nil_append, firstOccurrences, List.eq_nil_iff_forall_not_mem]
      intro y hy
      obtain ⟨hmem, hseen⟩ := mem_of_mem_firstOccurrences hy
      exact hseen (h y hmem)
  | cons x xs ih =>
      have hmore : ∀ y ∈ ys, key y ∈ key x :: seen := fun y hy => List.mem_cons_of_mem _ (h y hy)
      rw [List.cons_append, firstOccurrences, firstOccurrences, ih h, ih hmore]

end FirstOccurrences

namespace Selected

variable {M : Type} (S : Schema M)

theorem length_cells (a b : Assignment M) (entry : Selected M) :
    (cells S a entry).length = (cells S b entry).length := by
  cases entry <;> simp [cells]

/-- Equal cells of an entry make for an equal field. -/
theorem field_congr {a b : Assignment M} {entry : Selected M}
    (h : cells S a entry = cells S b entry) (counted : ColumnRef M → Nat) (all : Nat) :
    field S a counted all entry = field S b counted all entry := by
  have hkeys : ∀ source : Source M,
      (columnsOf S source).map a.read = (columnsOf S source).map b.read →
        (keyOf S source).map a.read = (keyOf S source).map b.read := by
    intro source hcells
    apply List.map_congr_left
    intro c hc
    exact List.map_inj_left.1 hcells c (List.mem_filter.1 hc).1
  cases entry with
  | model m => simp [field, hkeys _ h]
  | renamed m slot => simp [field, hkeys _ h]
  | column c =>
      have hread : a.read c = b.read c := by simpa [cells] using h
      simp [field, hread]
  | constant text => rfl
  | count c => cases c <;> rfl

end Selected

namespace Select

variable {M : Type} {S : Schema M} {s : Select M}

theorem fields_congr {a b : Assignment M} (h : s.cells S a = s.cells S b)
    (counted : ColumnRef M → Nat) (all : Nat) :
    s.fields S counted all a = s.fields S counted all b := by
  unfold fields
  unfold cells at h
  generalize s.selected = entries at h ⊢
  induction entries with
  | nil => rfl
  | cons entry rest ih =>
      rw [List.flatMap_cons, List.flatMap_cons] at h
      obtain ⟨hfirst, hrest⟩ := List.append_inj h (Selected.length_cells S a b entry)
      rw [List.map_cons, List.map_cons, Selected.field_congr S hfirst, ih hrest]

/-- The statement lists all its rows: it neither counts them nor stops early. -/
structure ListsRows (s : Select M) : Prop where
  counts : s.counts = false
  limit : s.limit = none

theorem counts_of_model {model : M} (hselected : s.selected = [.model model]) :
    s.counts = false := by
  simp [counts, hselected, Selected.isCount]

theorem ordered_perm (s : Select M) (found : List (Assignment M)) :
    (s.ordered found).Perm found := by
  unfold ordered
  split
  · exact .refl _
  · exact List.mergeSort_perm _ _

theorem mem_ordered {found : List (Assignment M)} {a : Assignment M} :
    a ∈ s.ordered found ↔ a ∈ found :=
  (s.ordered_perm found).mem_iff

theorem checkLimit_of_none (hlimit : s.limit = none) : s.checkLimit = .ok () := by
  rw [checkLimit, hlimit]

theorem limited_sublist {α : Type} (s : Select M) (found : List α) :
    (s.limited found).Sublist found := by
  unfold limited
  split
  · split
    · exact .refl _
    · exact List.take_sublist _ _
  · exact .refl _

/-- What a statement lists it reads off assignments that it found, whatever its limit. -/
theorem exists_of_mem_resultOf (hcounts : s.counts = false) {found : List (Assignment M)}
    {r : List (Field M)} (hr : r ∈ s.resultOf S found) :
    ∃ a ∈ found, s.fields S (fun _ => 0) 0 a = r := by
  rw [resultOf, hcounts, if_neg Bool.false_ne_true] at hr
  obtain ⟨a, ha, rfl⟩ := List.mem_map.1 hr
  refine ⟨a, ?_, rfl⟩
  have hleft := mem_ordered.1 ((s.limited_sublist _).subset ha)
  unfold withoutRepetitions at hleft
  split at hleft
  · exact (mem_of_mem_firstOccurrences hleft).1
  · exact hleft

theorem mem_resultOf (hs : s.ListsRows) {found : List (Assignment M)} {r : List (Field M)} :
    r ∈ s.resultOf S found ↔ ∃ a ∈ found, s.fields S (fun _ => 0) 0 a = r := by
  simp only [resultOf, hs.counts, limited, hs.limit, Bool.false_eq_true, if_false, List.mem_map,
    mem_ordered, withoutRepetitions]
  split
  · constructor
    · rintro ⟨a, ha, rfl⟩
      exact ⟨a, (mem_of_mem_firstOccurrences ha).1, rfl⟩
    · rintro ⟨a, ha, rfl⟩
      have hseen : s.cells S a ∉ [] := by simp
      obtain ⟨b, hb, heq⟩ := exists_mem_firstOccurrences ha hseen
      exact ⟨b, hb, fields_congr heq _ _⟩
  · exact Iff.rfl

theorem forM_eq_ok_iff {fs : List (Filter M)} :
    fs.forM Filter.checkValues = .ok () ↔ ∀ f ∈ fs, f.checkValues = .ok () := by
  induction fs with
  | nil => simp [pure, Except.pure]
  | cons f fs ih =>
      have hstep : (f :: fs).forM Filter.checkValues =
          f.checkValues >>= fun _ => fs.forM Filter.checkValues := rfl
      rw [hstep, Success.bind_eq_ok_iff, List.forall_mem_cons, ← ih]
      constructor
      · rintro ⟨u, hf, hfs⟩
        exact ⟨hf, hfs⟩
      · rintro ⟨hf, hfs⟩
        exact ⟨(), hf, hfs⟩

/-- A statement has a condition that no row satisfies as such. -/
def IsClosed (s : Select M) : Prop := ∃ f ∈ s.conditions, f.isNever = true

/-- The database takes what a statement hands it: the values of all its conditions, or none of them
if the statement is closed. -/
def Taken (s : Select M) : Prop := s.IsClosed ∨ ∀ f ∈ s.conditions, f.checkValues = .ok ()

/-- What is added to the conditions of a statement closes it only if it is false as such. -/
theorem isClosed_iff_of_append {own added : List (Filter M)} (h : s.conditions = own ++ added)
    (hadded : ∀ f ∈ added, f.isNever = false) : s.IsClosed ↔ ∃ f ∈ own, f.isNever = true := by
  rw [IsClosed, h]
  constructor
  · rintro ⟨f, hf, hnever⟩
    rcases List.mem_append.1 hf with hown | hmem
    · exact ⟨f, hown, hnever⟩
    · rw [hadded f hmem] at hnever
      cases hnever
  · rintro ⟨f, hf, hnever⟩
    exact ⟨f, List.mem_append_left _ hf, hnever⟩

theorem taken_iff_of_open (hopen : ¬ s.IsClosed) :
    s.Taken ↔ ∀ f ∈ s.conditions, f.checkValues = .ok () := or_iff_right hopen

theorem checkConditions_eq_ok_iff : s.checkConditions = .ok () ↔ s.Taken := by
  have hclosed : s.conditions.any Filter.isNever = true ↔ s.IsClosed := List.any_eq_true
  rw [checkConditions, Taken, ← hclosed, ← forM_eq_ok_iff]
  split
  · simp_all
  · simp_all

/-- The conditions of a closed statement do not all hold. -/
theorem IsClosed.not_holds (h : s.IsClosed) (a : Assignment M) :
    ¬ ∀ f ∈ s.conditions, f.holds a = true := by
  obtain ⟨f, hf, hnever⟩ := h
  intro hall
  cases f with
  | never => exact absurd (hall _ hf) (by simp)
  | _ => simp [Filter.isNever] at hnever

theorem Taken.checkValues (h : s.Taken) {a : Assignment M}
    (hholds : ∀ f ∈ s.conditions, f.holds a = true) : ∀ f ∈ s.conditions, f.checkValues = .ok () :=
  h.resolve_left fun hclosed => hclosed.not_holds a hholds

variable [DecidableEq M] {db : Database M}

theorem run_eq_ok_iff {rows : List (List (Field M))} :
    s.run S db = .ok rows ↔ ∃ chains, Layout.chains s = .ok chains ∧ s.Taken ∧
      s.checkLimit = .ok () ∧ s.resultOf S (s.satisfying db chains) = rows := by
  simp only [run, Success.bind_eq_ok_iff, Except.ok.injEq]
  constructor
  · rintro ⟨chains, hchains, u, htaken, u', hlimit, hrows⟩
    exact ⟨chains, hchains, checkConditions_eq_ok_iff.1 htaken, hlimit, hrows⟩
  · rintro ⟨chains, hchains, htaken, hlimit, hrows⟩
    exact ⟨chains, hchains, (), checkConditions_eq_ok_iff.2 htaken, (), hlimit, hrows⟩

/-- Running a statement whose joins are not captured: it succeeds when the database takes what it is
handed, and returns what is read off the assignments that fill its sources and satisfy its
conditions. -/
theorem mem_run (db : Database M) (hs : s.ListsRows) {roots : List (Source M)}
    (hlinked : Database.Linked roots s.joins) (hroots : ∀ source ∈ roots, source.role = .own)
    (hclear : Layout.Uncaptured s.joins) (htaken : s.Taken) :
    ∃ rows, s.run S db = .ok rows ∧ ∀ r, r ∈ rows ↔
      ∃ a, db.Fills s.reads s.joins a ∧ (∀ f ∈ s.conditions, f.holds a = true) ∧
        s.fields S (fun _ => 0) 0 a = r := by
  obtain ⟨chains, hchains, hlaid⟩ := Layout.laid_chains hlinked hroots hclear
  refine ⟨_, run_eq_ok_iff.2 ⟨chains, hchains, htaken, checkLimit_of_none hs.limit, rfl⟩,
    fun r => ?_⟩
  simp only [mem_resultOf hs, satisfying, List.mem_filter, List.all_eq_true,
    hlaid.mem_assignments, and_assoc]

/-- A statement whose joins are not captured can be run if the database takes what it is handed. -/
theorem exists_run_iff (db : Database M) (hs : s.ListsRows) {roots : List (Source M)}
    (hlinked : Database.Linked roots s.joins) (hroots : ∀ source ∈ roots, source.role = .own)
    (hclear : Layout.Uncaptured s.joins) : (∃ rows, s.run S db = .ok rows) ↔ s.Taken := by
  constructor
  · rintro ⟨rows, hrows⟩
    obtain ⟨-, -, htaken, -⟩ := run_eq_ok_iff.1 hrows
    exact htaken
  · intro htaken
    obtain ⟨rows, hrows, -⟩ := mem_run db hs hlinked hroots hclear htaken
    exact ⟨rows, hrows⟩

end Select

end RowAccess
