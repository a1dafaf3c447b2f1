import Mathlib.Data.List.Perm.Basic
import RowAccess.Proofs.JoinedRows
import RowAccess.Proofs.Success
/-!
# Joins at their own tables

Where the joins of a statement end up. A join starts at the table it was attached for, unless that
table is not read yet and another name for the same model is; then it is read from there, or the
statement is refused. When no join is captured in that way, the layout holds every join as it was
attached, and the assignments of its chains are described source by source.
-/

namespace RowAccess

/-- Where an element stands in a list with one more at the end: it is that one, or it stands before
it. -/
theorem snoc_eq_append_cons {α : Type} {xs before after : List α} {x y : α}
    (h : xs ++ [x] = before ++ y :: after) :
    (xs = before ∧ x = y) ∨ ∃ rest, xs = before ++ y :: rest := by
  rcases List.eq_nil_or_concat after with rfl | ⟨rest, last, rfl⟩
  · obtain ⟨rfl, hlast⟩ := List.append_inj' h rfl
    exact .inl ⟨rfl, List.singleton_inj.1 hlast⟩
  · have hsplit : xs ++ [x] = (before ++ y :: rest) ++ [last] := by simpa using h
    exact .inr ⟨rest, (List.append_inj' hsplit rfl).1⟩

namespace Layout

variable {M : Type}

/-- No join is read from another name of its parent's model: where a join starts at a source that
no earlier join starts at or attaches, none of them attaches that model under another name. -/
def Uncaptured (joins : List (Join M)) : Prop :=
  ∀ before j after, joins = before ++ j :: after →
    j.parent ∈ before.map (·.parent) ∨ j.parent ∈ before.map (·.target) ∨
      ∀ k ∈ before, k.target.model ≠ j.parent.model

theorem uncaptured_nil : Uncaptured ([] : List (Join M)) := by
  intro before j after h
  simp at h

theorem uncaptured_snoc {joins : List (Join M)} {j : Join M} :
    Uncaptured (joins ++ [j]) ↔ Uncaptured joins ∧
      (j.parent ∈ joins.map (·.parent) ∨ j.parent ∈ joins.map (·.target) ∨
        ∀ k ∈ joins, k.target.model ≠ j.parent.model) := by
  constructor
  · intro h
    refine ⟨fun before k after heq => h before k (after ++ [j]) (by simp [heq]), ?_⟩
    exact h joins j [] rfl
  · rintro ⟨hjoins, hj⟩ before k after heq
    rcases snoc_eq_append_cons heq with ⟨rfl, rfl⟩ | ⟨rest, hrest⟩
    · exact hj
    · exact hjoins before k rest hrest

/-- Chains that hold the given joins as they were attached. Their roots are the sources read
besides. -/
structure Laid (chains : List (Chain M)) (reads : List (Source M)) (joins : List (Join M)) :
    Prop where
  linked : ∀ chain ∈ chains, Database.Linked [chain.root] chain.joins
  nodup : (chains.flatMap Chain.sources).Nodup
  joined : ∀ j, (∃ chain ∈ chains, j ∈ chain.joins) ↔ j ∈ joins
  roots : ∀ s, (∃ chain ∈ chains, chain.root = s) ↔ s ∈ reads ∧ s ∉ joins.map (·.target)

theorem Laid.nil : Laid ([] : List (Chain M)) [] [] where
  linked := by simp
  nodup := by simp
  joined := by simp
  roots := by simp

/-- What chains hold: the sources that are read and those that are joined. -/
theorem Laid.mem_sources {chains : List (Chain M)} {reads : List (Source M)}
    {joins : List (Join M)} (h : Laid chains reads joins) {s : Source M} :
    s ∈ chains.flatMap Chain.sources ↔ s ∈ reads ∨ s ∈ joins.map (·.target) := by
  have hroot := h.roots s
  constructor
  · intro hs
    obtain ⟨chain, hchain, hmem⟩ := List.mem_flatMap.1 hs
    rcases List.mem_cons.1 hmem with rfl | htarget
    · exact .inl (hroot.1 ⟨chain, hchain, rfl⟩).1
    · obtain ⟨j, hj, rfl⟩ := List.mem_map.1 htarget
      exact .inr (List.mem_map_of_mem ((h.joined j).1 ⟨chain, hchain, hj⟩))
  · intro hs
    by_cases htarget : s ∈ joins.map (·.target)
    · obtain ⟨j, hj, rfl⟩ := List.mem_map.1 htarget
      obtain ⟨chain, hchain, hmem⟩ := (h.joined j).2 hj
      exact List.mem_flatMap.2 ⟨chain, hchain, List.mem_cons_of_mem _ (List.mem_map_of_mem hmem)⟩
    · obtain ⟨chain, hchain, heq⟩ := hroot.2 ⟨hs.resolve_right htarget, htarget⟩
      exact List.mem_flatMap.2 ⟨chain, hchain, by simp [Chain.sources, heq]⟩

variable [DecidableEq M]

theorem holds_iff {chain : Chain M} {s : Source M} : chain.holds s = true ↔ s ∈ chain.sources := by
  simp [Chain.holds]

theorem any_holds_iff {chains : List (Chain M)} {s : Source M} :
    chains.any (·.holds s) = true ↔ s ∈ chains.flatMap Chain.sources := by
  simp only [List.any_eq_true, holds_iff, List.mem_flatMap]

theorem holds_of_covers {chain : Chain M} {s : Source M} (h : chain.holds s = true) :
    chain.covers s = true := by
  simp [Chain.covers, h]

theorem countP_holds {chains : List (Chain M)} (hnodup : (chains.flatMap Chain.sources).Nodup)
    {s : Source M} (hs : s ∈ chains.flatMap Chain.sources) : chains.countP (·.holds s) = 1 := by
  induction chains with
  | nil => simp at hs
  | cons chain chains ih =>
      rw [List.flatMap_cons, List.nodup_append] at hnodup
      obtain ⟨-, hrest, hdisjoint⟩ := hnodup
      rw [List.flatMap_cons, List.mem_append] at hs
      rcases hs with hs | hs
      · have hnone : chains.countP (·.holds s) = 0 := by
          rw [List.countP_eq_zero]
          intro c hc hholds
          exact hdisjoint s hs s (List.mem_flatMap.2 ⟨c, hc, holds_iff.1 hholds⟩) rfl
        rw [List.countP_cons, hnone, if_pos (holds_iff.2 hs)]
      · have hfirst : ¬ chain.holds s = true := by
          intro hholds
          exact hdisjoint s (holds_iff.1 hholds) s hs rfl
        rw [List.countP_cons, if_neg hfirst, ih hrest hs]

theorem of_countP_eq {α : Type} {p q : α → Bool} {xs : List α} (hle : ∀ x, p x = true → q x = true)
    (hcount : xs.countP q ≤ xs.countP p) : ∀ x ∈ xs, q x = p x := by
  induction xs with
  | nil => simp
  | cons y ys ih =>
      have hmono : ys.countP p ≤ ys.countP q := List.countP_mono_left fun x _ => hle x
      simp only [List.countP_cons] at hcount
      have hy : q y = p y := by
        cases hp : p y with
        | true => exact hle y hp
        | false =>
            cases hq : q y with
            | false => rfl
            | true =>
                rw [hp, hq] at hcount
                simp only [if_true, Bool.false_eq_true, if_false] at hcount
                omega
      rw [hy] at hcount
      intro x hx
      rcases List.mem_cons.1 hx with rfl | hx
      · exact hy
      · exact ih (by omega) x hx

/-! ## Placing one join -/

theorem place_held {chains : List (Chain M)} (hnodup : (chains.flatMap Chain.sources).Nodup)
    {j : Join M} (hparent : j.parent ∈ chains.flatMap Chain.sources) :
    place j chains = .ok (extendWhere (·.holds j.parent) j chains) := by
  have hheld := countP_holds hnodup hparent
  have hle : chains.countP (·.holds j.parent) ≤ chains.countP (·.covers j.parent) :=
    List.countP_mono_left fun chain _ => holds_of_covers
  unfold place
  rw [hheld]
  rcases Nat.lt_or_ge (chains.countP (·.covers j.parent)) 2 with hone | htwo
  · have hcovers : chains.countP (·.covers j.parent) = 1 := by omega
    rw [hcovers]
    have hsame : ∀ chain ∈ chains, chain.covers j.parent = chain.holds j.parent :=
      of_countP_eq (fun chain => holds_of_covers) (by omega)
    simp only [extendWhere, Except.ok.injEq]
    exact List.map_congr_left fun chain hchain => by simp only [hsame chain hchain]
  · obtain ⟨n, hn⟩ : ∃ n, chains.countP (·.covers j.parent) = n + 2 :=
      ⟨_, (Nat.sub_add_cancel htwo).symm⟩
    rw [hn]
    rfl

theorem place_new {chains : List (Chain M)} {j : Join M}
    (hnone : ∀ chain ∈ chains, chain.covers j.parent = false) :
    place j chains = .ok (chains ++ [⟨j.parent, [j]⟩]) := by
  have hzero : chains.countP (·.covers j.parent) = 0 := by
    rw [List.countP_eq_zero]
    intro chain hchain
    simp [hnone chain hchain]
  unfold place
  rw [hzero]
  rfl

theorem extend_of_holds {chain : Chain M} {j : Join M} (h : chain.holds j.parent = true) :
    chain.extend j = { chain with joins := chain.joins ++ [j] } := by
  simp [Chain.extend, Chain.entry, h]

theorem sources_extendWhere (chains : List (Chain M)) (j : Join M) :
    ((extendWhere (·.holds j.parent) j chains).flatMap Chain.sources).Perm
      (chains.flatMap Chain.sources ++
        List.replicate (chains.countP (·.holds j.parent)) j.target) := by
  induction chains with
  | nil => simp [extendWhere]
  | cons chain chains ih =>
      simp only [extendWhere, List.map_cons, List.flatMap_cons] at ih ⊢
      by_cases h : chain.holds j.parent = true
      · rw [if_pos h, List.countP_cons, if_pos h, extend_of_holds h, List.replicate_succ]
        have hsources : Chain.sources { chain with joins := chain.joins ++ [j] } =
            chain.sources ++ [j.target] := by simp [Chain.sources]
        rw [hsources, List.append_assoc, List.append_assoc]
        apply List.Perm.append_left chain.sources
        exact (ih.cons j.target).trans List.perm_middle.symm
      · rw [if_neg h, List.countP_cons, if_neg h, List.append_assoc]
        exact ih.append_left chain.sources

theorem mem_joins_extendWhere {chains : List (Chain M)} {j k : Join M}
    (hparent : j.parent ∈ chains.flatMap Chain.sources) :
    (∃ after ∈ extendWhere (·.holds j.parent) j chains, k ∈ after.joins) ↔
      (∃ chain ∈ chains, k ∈ chain.joins) ∨ k = j := by
  constructor
  · rintro ⟨after, hafter, hk⟩
    obtain ⟨chain, hchain, rfl⟩ := List.mem_map.1 hafter
    by_cases hholds : chain.holds j.parent = true
    · rw [if_pos hholds, extend_of_holds hholds, List.mem_append, List.mem_singleton] at hk
      exact hk.imp_left fun hk => ⟨chain, hchain, hk⟩
    · rw [if_neg hholds] at hk
      exact .inl ⟨chain, hchain, hk⟩
  · rintro (⟨chain, hchain, hk⟩ | rfl)
    · refine ⟨_, List.mem_map_of_mem hchain, ?_⟩
      split
      · simp [Chain.extend, hk]
      · exact hk
    · obtain ⟨chain, hchain, hmem⟩ := List.mem_flatMap.1 hparent
      refine ⟨_, List.mem_map_of_mem hchain, ?_⟩
      rw [if_pos (holds_iff.2 hmem), extend_of_holds (holds_iff.2 hmem)]
      simp

theorem exists_root_extendWhere {chains : List (Chain M)} {test : Chain M → Bool} {j : Join M}
    {s : Source M} : (∃ chain ∈ extendWhere test j chains, chain.root = s) ↔
      ∃ chain ∈ chains, chain.root = s := by
  simp only [extendWhere, List.mem_map, exists_exists_and_eq_and]
  refine exists_congr fun chain => and_congr_right fun _ => ?_
  split <;> rfl

/-- A join whose parent is held goes to the chain that holds it. -/
theorem Laid.place_held {chains : List (Chain M)} {reads : List (Source M)}
    {joins : List (Join M)} (h : Laid chains reads joins) {j : Join M}
    (hparent : j.parent ∈ chains.flatMap Chain.sources)
    (hfresh : j.target ∉ chains.flatMap Chain.sources) :
    ∃ after, place j chains = .ok after ∧ Laid after (reads ++ [j.parent]) (joins ++ [j]) := by
  have hreads : j.target ∉ reads := fun hr => hfresh (h.mem_sources.2 (.inl hr))
  refine ⟨_, Layout.place_held h.nodup hparent, ?_, ?_, fun k => ?_, fun s => ?_⟩
  · intro after hafter
    obtain ⟨chain, hchain, rfl⟩ := List.mem_map.1 hafter
    by_cases hholds : chain.holds j.parent = true
    · rw [if_pos hholds, extend_of_holds hholds]
      have hnew : j.target ∉ chain.sources := fun hs =>
        hfresh (List.mem_flatMap.2 ⟨chain, hchain, hs⟩)
      rw [Chain.sources, List.mem_cons, not_or] at hnew
      refine .snoc (h.linked chain hchain) ?_ (by simpa using hnew.1) hnew.2
      simpa [Chain.sources] using holds_iff.1 hholds
    · rw [if_neg hholds]
      exact h.linked chain hchain
  · rw [(sources_extendWhere chains j).nodup_iff, countP_holds h.nodup hparent,
      List.nodup_append]
    refine ⟨h.nodup, by simp, ?_⟩
    rintro s hs last hlast rfl
    rw [List.replicate_one, List.mem_singleton] at hlast
    exact hfresh (hlast ▸ hs)
  · rw [List.mem_append, List.mem_singleton, ← h.joined k]
    exact mem_joins_extendWhere hparent
  · have hheld := h.mem_sources.1 hparent
    rw [exists_root_extendWhere, h.roots s]
    simp only [List.map_append, List.map_singleton, List.mem_append, List.mem_singleton, not_or]
    constructor
    · rintro ⟨hs, htarget⟩
      exact ⟨.inl hs, htarget, fun heq => hreads (heq ▸ hs)⟩
    · rintro ⟨hs, htarget, -⟩
      refine ⟨hs.elim id ?_, htarget⟩
      rintro rfl
      exact hheld.resolve_right htarget

/-- A join whose parent no chain holds or has another name for starts a chain. -/
theorem Laid.place_new {chains : List (Chain M)} {reads : List (Source M)}
    {joins : List (Join M)} (h : Laid chains reads joins) {j : Join M}
    (hnone : ∀ chain ∈ chains, chain.covers j.parent = false)
    (hfresh : j.target ∉ chains.flatMap Chain.sources) (hself : j.target ≠ j.parent) :
    ∃ after, place j chains = .ok after ∧ Laid after (reads ++ [j.parent]) (joins ++ [j]) := by
  have hparent : j.parent ∉ chains.flatMap Chain.sources := by
    intro hs
    obtain ⟨chain, hchain, hmem⟩ := List.mem_flatMap.1 hs
    have hcovers := holds_of_covers (holds_iff.2 hmem)
    rw [hnone chain hchain] at hcovers
    cases hcovers
  have hreads : j.target ∉ reads := fun hr => hfresh (h.mem_sources.2 (.inl hr))
  have hnew : Database.Linked [j.parent] [j] :=
    .snoc .nil (by simp) (by simpa using hself) (by simp)
  refine ⟨_, Layout.place_new hnone, ?_, ?_, fun k => ?_, fun s => ?_⟩
  · simpa [or_imp, forall_and] using ⟨h.linked, hnew⟩
  · rw [List.flatMap_append, List.nodup_append]
    refine ⟨h.nodup, by simpa [Chain.sources] using hself.symm, ?_⟩
    rintro s hs last hlast rfl
    simp only [List.flatMap_singleton, Chain.sources, List.map_singleton, List.mem_cons,
      List.not_mem_nil, or_false] at hlast
    rcases hlast with rfl | rfl
    · exact hparent hs
    · exact hfresh hs
  · rw [List.mem_append, ← h.joined k]
    simp [or_and_right, exists_or]
  · have hheld := mt h.mem_sources.2 hparent
    rw [not_or] at hheld
    have hold := h.roots s
    simp only [List.mem_append, List.mem_singleton, or_and_right, exists_or, exists_eq_left, hold,
      List.map_append, List.map_singleton, not_or]
    constructor
    · rintro (⟨hs, htarget⟩ | rfl)
      · exact .inl ⟨hs, htarget, fun heq => hreads (heq ▸ hs)⟩
      · exact .inr ⟨rfl, hheld.2, hself.symm⟩
    · rintro (⟨hs, htarget, -⟩ | ⟨rfl, -, -⟩)
      · exact .inl ⟨hs, htarget⟩
      · exact .inr rfl

/-- A root that no join starts at is covered by no chain, unless its model is joined under another
name. -/
theorem Laid.covers_eq_false {chains : List (Chain M)} {roots : List (Source M)}
    {joins : List (Join M)} (h : Laid chains (joins.map (·.parent)) joins)
    (hlinked : Database.Linked roots joins) (hroots : ∀ s ∈ roots, s.role = .own) {s : Source M}
    (hnotRead : s ∉ joins.map (·.parent)) (hmodels : ∀ k ∈ joins, k.target.model ≠ s.model)
    (hown : s.role = .own) : ∀ chain ∈ chains, chain.covers s = false := by
  intro chain hchain
  have hnone : ∀ r ∈ chain.sources, r.model ≠ s.model := by
    intro r hr heq
    have hheld := h.mem_sources.1 (List.mem_flatMap.2 ⟨chain, hchain, hr⟩)
    by_cases htarget : r ∈ joins.map (·.target)
    · obtain ⟨k, hk, rfl⟩ := List.mem_map.1 htarget
      exact hmodels k hk heq
    · obtain ⟨k, hk, rfl⟩ := List.mem_map.1 (hheld.resolve_right htarget)
      have hkown := hroots _ ((hlinked.parent_mem hk).resolve_right htarget)
      have hsame : k.parent = s := by
        cases hkp : k.parent
        cases s
        simp_all
      exact hnotRead (hsame ▸ List.mem_map_of_mem hk)
  simp only [Chain.covers, Chain.holds, Bool.or_eq_false_iff, List.contains_eq_mem,
    decide_eq_false_iff_not, Bool.and_eq_false_iff]
  refine ⟨fun hmem => hnone _ hmem rfl, .inr ?_⟩
  simpa using hnone

/-- When no join is captured, all joins are placed as they were attached. -/
theorem laid_joins {roots : List (Source M)} {joins : List (Join M)}
    (hlinked : Database.Linked roots joins) (hroots : ∀ s ∈ roots, s.role = .own)
    (hclear : Uncaptured joins) :
    ∃ chains, joins.foldlM (fun chains j => place j chains) [] = .ok chains ∧
      Laid chains (joins.map (·.parent)) joins := by
  induction hlinked with
  | nil => exact ⟨[], rfl, .nil⟩
  | @snoc joins j hlinked hparent hroot hfresh ih =>
      obtain ⟨hbefore, hj⟩ := uncaptured_snoc.1 hclear
      obtain ⟨chains, hchains, hlaid⟩ := ih hbefore
      have hnotRead : j.target ∉ joins.map (·.parent) := by
        intro hmem
        obtain ⟨k, hk, heq⟩ := List.mem_map.1 hmem
        rcases hlinked.parent_mem hk with hk | hk
        · exact hroot (heq ▸ hk)
        · exact hfresh (heq ▸ hk)
      have hnew : j.target ∉ chains.flatMap Chain.sources := by
        rw [hlaid.mem_sources, not_or]
        exact ⟨hnotRead, hfresh⟩
      have hplaced : ∃ after, place j chains = .ok after ∧
          Laid after ((joins ++ [j]).map (·.parent)) (joins ++ [j]) := by
        rw [List.map_append, List.map_singleton]
        by_cases hheld : j.parent ∈ chains.flatMap Chain.sources
        · exact hlaid.place_held hheld hnew
        · have hout := mt hlaid.mem_sources.2 hheld
          rw [not_or] at hout
          have hmodels := (hj.resolve_left hout.1).resolve_left hout.2
          have hown := hroots _ (hparent.resolve_right hout.2)
          apply hlaid.place_new (hlaid.covers_eq_false hlinked hroots hout.1 hmodels hown) hnew
          intro heq
          exact hroot (heq ▸ hparent.resolve_right hout.2)
      obtain ⟨after, hafter, hlaid'⟩ := hplaced
      refine ⟨after, ?_, hlaid'⟩
      rw [List.foldlM_append, Success.bind_ok hchains]
      simpa using hafter

/-! ## Captured joins -/

/-- What placing a join can do: start a chain if nothing has its parent's model, or extend the one
chain that covers its parent or else the one that holds it. -/
theorem place_cases {chains after : List (Chain M)} {j : Join M} (h : place j chains = .ok after) :
    ((∀ chain ∈ chains, chain.covers j.parent = false) ∧
        after = chains ++ [⟨j.parent, [j]⟩]) ∨
      after = extendWhere (·.covers j.parent) j chains ∨
      ((∃ chain ∈ chains, chain.holds j.parent = true) ∧
        after = extendWhere (·.holds j.parent) j chains) := by
  unfold place at h
  split at h
  · rename_i hzero
    refine .inl ⟨fun chain hchain => ?_, (Except.ok.inj h).symm⟩
    simpa using List.countP_eq_zero.1 hzero chain hchain
  · exact .inr (.inl (Except.ok.inj h).symm)
  · refine .inr (.inr ⟨?_, (Except.ok.inj h).symm⟩)
    exact List.countP_pos_iff.1 (by omega)
  · cases h

/-- Placing a join leaves the other joins as they are and attaches one for the same target. -/
theorem joins_of_place {chains after : List (Chain M)} {j k : Join M}
    (h : place j chains = .ok after) (hk : ∃ chain ∈ after, k ∈ chain.joins) :
    (∃ chain ∈ chains, k ∈ chain.joins) ∨ k.target = j.target := by
  have hextended : ∀ test : Chain M → Bool, (∃ chain ∈ extendWhere test j chains, k ∈ chain.joins) →
      (∃ chain ∈ chains, k ∈ chain.joins) ∨ k.target = j.target := by
    rintro test ⟨chain, hchain, hmem⟩
    obtain ⟨before, hbefore, rfl⟩ := List.mem_map.1 hchain
    split at hmem
    · rcases List.mem_append.1 hmem with hold | hnew
      · exact .inl ⟨before, hbefore, hold⟩
      · rw [List.mem_singleton.1 hnew]
        exact .inr rfl
    · exact .inl ⟨before, hbefore, hmem⟩
  rcases place_cases h with ⟨-, rfl⟩ | rfl | ⟨-, rfl⟩
  · obtain ⟨chain, hchain, hmem⟩ := hk
    rcases List.mem_append.1 hchain with hold | hnew
    · exact .inl ⟨chain, hold, hmem⟩
    · obtain rfl := List.mem_singleton.1 hnew
      rw [List.mem_singleton.1 hmem]
      exact .inr rfl
  · exact hextended _ hk
  · exact hextended _ hk

/-- A chain that covers a source without holding it lets joins start somewhere else. -/
theorem entry_ne {chain : Chain M} {s : Source M} (hcovers : chain.covers s = true)
    (hholds : ¬ chain.holds s = true) : chain.entry s ≠ s := by
  intro heq
  have hother : chain.sources.any (fun other => other.model == s.model) = true := by
    simp only [Chain.covers, hholds, Bool.false_or, Bool.and_eq_true] at hcovers
    exact hcovers.2
  obtain ⟨found, hfound⟩ := Option.isSome_iff_exists.1
    ((List.find?_isSome (p := fun other : Source M => other.model == s.model)).2
      (List.any_eq_true.1 hother))
  rw [Chain.entry, if_neg hholds, hfound] at heq
  obtain rfl : found = s := heq
  exact hholds (holds_iff.2 (List.mem_of_find?_eq_some hfound))

theorem covers_of_mem {chain : Chain M} {s held : Source M} (hheld : held ∈ chain.sources)
    (hmodel : held.model = s.model) (hown : s.role = .own) : chain.covers s = true := by
  simp only [Chain.covers, hown, BEq.rfl, Bool.true_and, Bool.or_eq_true]
  exact .inr (List.any_eq_true.2 ⟨held, hheld, by simp [hmodel]⟩)

/-- A join does not stay as it is if its parent is covered by a chain, but held by none. -/
theorem not_kept_of_covered {chains after : List (Chain M)} {j : Join M}
    (hplace : place j chains = .ok after) (hnew : ∀ chain ∈ chains, j ∉ chain.joins)
    (hunheld : ∀ chain ∈ chains, ¬ chain.holds j.parent = true)
    (hcovered : ∃ chain ∈ chains, chain.covers j.parent = true) :
    ¬ ∃ chain ∈ after, j ∈ chain.joins := by
  rintro ⟨chain, hchain, hj⟩
  rcases place_cases hplace with ⟨hnone, -⟩ | rfl | ⟨⟨held, hheld, hholds⟩, -⟩
  · obtain ⟨other, hother, hcovers⟩ := hcovered
    rw [hnone other hother] at hcovers
    cases hcovers
  · obtain ⟨before, hbefore, rfl⟩ := List.mem_map.1 hchain
    split at hj
    · rename_i hcovers
      rcases List.mem_append.1 hj with hmem | hmem
      · exact hnew before hbefore hmem
      · apply entry_ne hcovers (hunheld before hbefore)
        exact (congrArg Join.parent (List.mem_singleton.1 hmem)).symm
    · exact hnew before hbefore hj
  · exact hunheld held hheld hholds

/-- Joins that all stay as they were attached are not captured. -/
theorem uncaptured_of_kept {roots : List (Source M)} {joins : List (Join M)}
    (hlinked : Database.Linked roots joins) (hroots : ∀ s ∈ roots, s.role = .own)
    {chains : List (Chain M)}
    (hchains : joins.foldlM (fun chains j => place j chains) [] = .ok chains)
    (hkept : ∀ j ∈ joins, ∃ chain ∈ chains, j ∈ chain.joins) : Uncaptured joins := by
  induction hlinked generalizing chains with
  | nil => exact uncaptured_nil
  | @snoc joins j hlinked hparent hroot hfresh ih =>
      rw [List.foldlM_append] at hchains
      obtain ⟨before, hbefore, hplaced⟩ := Success.bind_eq_ok_iff.1 hchains
      have hplace : place j before = .ok chains := by simpa using hplaced
      have hclear : Uncaptured joins := by
        apply ih hbefore
        intro k hk
        apply (joins_of_place hplace (hkept k (by simp [hk]))).resolve_right
        intro heq
        exact hfresh (heq ▸ List.mem_map_of_mem hk)
      obtain ⟨before', hbefore', hlaid⟩ := laid_joins hlinked hroots hclear
      obtain rfl := Except.ok.inj (hbefore.symm.trans hbefore')
      refine uncaptured_snoc.2 ⟨hclear, ?_⟩
      by_contra hcaptured
      push Not at hcaptured
      obtain ⟨hnotRead, hnotTarget, k, hk, hmodel⟩ := hcaptured
      refine not_kept_of_covered hplace ?_ ?_ ?_ (hkept j (by simp))
      · intro chain hchain hmem
        exact hfresh (List.mem_map_of_mem ((hlaid.joined j).1 ⟨chain, hchain, hmem⟩))
      · intro chain hchain hholds
        rcases hlaid.mem_sources.1 (List.mem_flatMap.2 ⟨chain, hchain, holds_iff.1 hholds⟩) with
          hmem | hmem
        · exact hnotRead hmem
        · exact hnotTarget hmem
      · obtain ⟨chain, hchain, hkchain⟩ := (hlaid.joined k).2 hk
        have hsource : k.target ∈ chain.sources := by
          simp only [Chain.sources, List.mem_cons]
          exact .inr (List.mem_map_of_mem hkchain)
        have hown := hroots _ (hparent.resolve_right hnotTarget)
        exact ⟨chain, hchain, covers_of_mem hsource hmodel hown⟩

/-! ## Sources that stand alone -/

theorem Laid.addSource {chains : List (Chain M)} {reads : List (Source M)}
    {joins : List (Join M)} (h : Laid chains reads joins) (s : Source M) :
    Laid (addSource chains s) (reads ++ [s]) joins := by
  by_cases hheld : s ∈ chains.flatMap Chain.sources
  · rw [Layout.addSource, if_pos (any_holds_iff.2 hheld)]
    refine ⟨h.linked, h.nodup, h.joined, fun r => ?_⟩
    rw [h.roots r, List.mem_append, List.mem_singleton]
    constructor
    · rintro ⟨hr, htarget⟩
      exact ⟨.inl hr, htarget⟩
    · rintro ⟨hr | rfl, htarget⟩
      · exact ⟨hr, htarget⟩
      · exact ⟨(h.mem_sources.1 hheld).resolve_right htarget, htarget⟩
  · have hout := mt h.mem_sources.2 hheld
    rw [not_or] at hout
    rw [Layout.addSource, if_neg (mt any_holds_iff.1 hheld)]
    refine ⟨?_, ?_, fun j => ?_, fun r => ?_⟩
    · intro chain hchain
      rcases List.mem_append.1 hchain with hold | hnew
      · exact h.linked chain hold
      · obtain rfl := List.mem_singleton.1 hnew
        exact .nil
    · rw [List.flatMap_append, List.nodup_append]
      refine ⟨h.nodup, by simp [Chain.sources], ?_⟩
      rintro r hr last hlast rfl
      simp only [List.flatMap_singleton, Chain.sources, List.map_nil, List.mem_singleton] at hlast
      exact hheld (hlast ▸ hr)
    · rw [← h.joined j]
      simp [or_and_right, exists_or]
    · have hold := h.roots r
      simp only [List.mem_append, List.mem_singleton, or_and_right, exists_or, exists_eq_left,
        hold]
      refine or_congr_right ⟨?_, fun hr => hr.1.symm⟩
      rintro rfl
      exact ⟨rfl, hout.2⟩

theorem Laid.foldl_addSource {chains : List (Chain M)} {reads : List (Source M)}
    {joins : List (Join M)} (h : Laid chains reads joins) (others : List (Source M)) :
    Laid (others.foldl Layout.addSource chains) (reads ++ others) joins := by
  induction others generalizing chains reads with
  | nil => simpa using h
  | cons s others ih => simpa using ih (h.addSource s)

end Layout

/-- The sources a statement reads: those its joins start at, and those of its select list and its
conditions. -/
def Select.reads {M : Type} (statement : Select M) : List (Source M) :=
  statement.joins.map (·.parent) ++
    (statement.selected.filterMap Selected.source? ++
      statement.conditions.flatMap Layout.filterSources)

namespace Layout

variable {M : Type} [DecidableEq M]

theorem laid_chains {statement : Select M} {roots : List (Source M)}
    (hlinked : Database.Linked roots statement.joins) (hroots : ∀ s ∈ roots, s.role = .own)
    (hclear : Uncaptured statement.joins) :
    ∃ chains, Layout.chains statement = .ok chains ∧
      Laid chains statement.reads statement.joins := by
  obtain ⟨chains, hchains, hlaid⟩ := laid_joins hlinked hroots hclear
  refine ⟨_, ?_, hlaid.foldl_addSource _⟩
  rw [Layout.chains, Success.bind_ok hchains]

theorem joins_foldl_addSource (others : List (Source M)) (chains : List (Chain M)) (j : Join M) :
    (∃ chain ∈ others.foldl addSource chains, j ∈ chain.joins) ↔
      ∃ chain ∈ chains, j ∈ chain.joins := by
  induction others generalizing chains with
  | nil => exact Iff.rfl
  | cons s others ih =>
      rw [List.foldl_cons, ih, addSource]
      split
      · exact Iff.rfl
      · simp [or_and_right, exists_or]

/-- The layout of a statement keeps every join as it was attached exactly if none is captured. -/
theorem kept_iff_uncaptured {statement : Select M} {roots : List (Source M)}
    (hlinked : Database.Linked roots statement.joins) (hroots : ∀ s ∈ roots, s.role = .own) :
    (∃ chains, Layout.chains statement = .ok chains ∧
      ∀ j ∈ statement.joins, ∃ chain ∈ chains, j ∈ chain.joins) ↔
        Uncaptured statement.joins := by
  constructor
  · rintro ⟨chains, hchains, hkept⟩
    obtain ⟨joined, hjoined, hothers⟩ := Success.bind_eq_ok_iff.1 hchains
    obtain rfl := Except.ok.inj hothers
    apply uncaptured_of_kept hlinked hroots hjoined
    intro j hj
    exact (joins_foldl_addSource _ joined j).1 (hkept j hj)
  · intro hclear
    obtain ⟨chains, hchains, hlaid⟩ := laid_chains hlinked hroots hclear
    exact ⟨chains, hchains, fun j hj => (hlaid.joined j).2 hj⟩

end Layout

namespace Database

variable {M : Type}

/-- An assignment to the sources of a statement: what is joined holds what its join may put there,
what is read besides holds a row of its model, and all other sources hold nothing. -/
structure Fills (db : Database M) (reads : List (Source M)) (joins : List (Join M))
    (a : Assignment M) : Prop where
  respects : db.Respects joins a
  roots : ∀ s ∈ reads, s ∉ joins.map (·.target) → ∃ row ∈ db.rows s.model, a s = some row
  outside : ∀ s, s ∉ reads → s ∉ joins.map (·.target) → a s = none

end Database

theorem Layout.Laid.mem_assignments {M : Type} [DecidableEq M] {db : Database M}
    {chains : List (Chain M)} {reads : List (Source M)} {joins : List (Join M)}
    (h : Laid chains reads joins) {a : Assignment M} :
    a ∈ db.assignments chains ↔ db.Fills reads joins a := by
  rw [Database.mem_assignments h.linked h.nodup]
  constructor
  · rintro ⟨houtside, hchains⟩
    refine ⟨fun j hj => ?_, fun s hs htarget => ?_, fun s hs htarget => houtside s ?_⟩
    · obtain ⟨chain, hchain, hmem⟩ := (h.joined j).2 hj
      exact (hchains chain hchain).2 j hmem
    · obtain ⟨chain, hchain, rfl⟩ := (h.roots s).2 ⟨hs, htarget⟩
      exact (hchains chain hchain).1
    · rw [h.mem_sources, not_or]
      exact ⟨hs, htarget⟩
  · rintro ⟨hrespects, hreads, houtside⟩
    refine ⟨fun s hs => ?_, fun chain hchain => ⟨?_, fun j hj => ?_⟩⟩
    · rw [h.mem_sources, not_or] at hs
      exact houtside s hs.1 hs.2
    · obtain ⟨hs, htarget⟩ := (h.roots chain.root).1 ⟨chain, hchain, rfl⟩
      exact hreads _ hs htarget
    · exact hrespects j ((h.joined j).1 ⟨chain, hchain, hj⟩)

end RowAccess
