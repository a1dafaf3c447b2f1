import RowAccess.Fault
import RowAccess.Proofs.Success
/-!
# Faults in the order of a document

A position in a nested list of entries is written as the number of entries gone by at each level,
so that positions are ordered as the entries are written. A computation that goes through a document
finds the first fault if it fails with the fault at the earliest position that has one, and succeeds
if there is none.
-/

namespace RowAccess

/-- The fault that comes first in the order of the document. -/
def IsFirst (faults : List Nat → Fault → Prop) (fault : Fault) : Prop :=
  ∃ position, faults position fault ∧ ∀ earlier < position, ∀ other, ¬ faults earlier other

theorem IsFirst.congr {faults others : List Nat → Fault → Prop} {fault : Fault}
    (h : ∀ position e, faults position e ↔ others position e) :
    IsFirst faults fault ↔ IsFirst others fault := by
  simp only [IsFirst, h]

/-- A fault at the root comes before all others. -/
theorem isFirst_of_root {faults : List Nat → Fault → Prop} {root fault : Fault}
    (hroot : faults [] root) : IsFirst faults fault ↔ faults [] fault := by
  constructor
  · rintro ⟨position, hfault, hearlier⟩
    cases position with
    | nil => exact hfault
    | cons index position => exact absurd hroot (hearlier [] (List.nil_lt_cons _ _) root)
  · intro hfault
    exact ⟨[], hfault, fun earlier h => absurd h (List.not_lt_nil _)⟩

/-- The first fault of a list of entries is the first of its first entry, if that has one, or else
the first of the others. -/
theorem isFirst_cons {faults first rest : List Nat → Fault → Prop} {fault : Fault}
    (hroot : ∀ e, ¬ faults [] e)
    (hfirst : ∀ position e, faults (0 :: position) e ↔ first position e)
    (hrest : ∀ index position e,
      faults ((index + 1) :: position) e ↔ rest (index :: position) e)
    (hnone : ∀ e, ¬ rest [] e) :
    IsFirst faults fault ↔
      IsFirst first fault ∨ (∀ position e, ¬ first position e) ∧ IsFirst rest fault := by
  constructor
  · rintro ⟨_ | ⟨_ | index, position⟩, hfault, hearlier⟩
    · exact absurd hfault (hroot _)
    · refine .inl ⟨position, (hfirst _ _).1 hfault, fun earlier h other hother => ?_⟩
      exact hearlier (0 :: earlier) (List.cons_lt_cons_iff.2 (.inr ⟨rfl, h⟩)) other
        ((hfirst _ _).2 hother)
    · refine .inr ⟨fun earlier other hother => ?_, index :: position, (hrest _ _ _).1 hfault,
        fun earlier h other hother => ?_⟩
      · exact hearlier (0 :: earlier) (List.cons_lt_cons_iff.2 (.inl index.succ_pos)) other
          ((hfirst _ _).2 hother)
      · cases earlier with
        | nil => exact hnone _ hother
        | cons i earlier =>
            refine hearlier ((i + 1) :: earlier) ?_ other ((hrest _ _ _).2 hother)
            rw [List.cons_lt_cons_iff] at h ⊢
            exact h.imp Nat.succ_lt_succ (And.imp_left (congrArg Nat.succ))
  · rintro (⟨position, hfault, hearlier⟩ | ⟨hno, position, hfault, hearlier⟩)
    · refine ⟨0 :: position, (hfirst _ _).2 hfault, fun earlier h other hother => ?_⟩
      cases earlier with
      | nil => exact hroot _ hother
      | cons i earlier =>
          rcases List.cons_lt_cons_iff.1 h with hindex | ⟨rfl, hinner⟩
          · exact absurd hindex (Nat.not_lt_zero i)
          · exact hearlier earlier hinner other ((hfirst _ _).1 hother)
    · cases position with
      | nil => exact absurd hfault (hnone _)
      | cons index position =>
          refine ⟨(index + 1) :: position, (hrest _ _ _).2 hfault, fun earlier h other hother => ?_⟩
          rcases earlier with _ | ⟨_ | i, earlier⟩
          · exact hroot _ hother
          · exact hno _ _ ((hfirst _ _).1 hother)
          · refine hearlier (i :: earlier) ?_ other ((hrest _ _ _).1 hother)
            rw [List.cons_lt_cons_iff] at h ⊢
            exact h.imp Nat.lt_of_succ_lt_succ (And.imp_left Nat.succ.inj)

/-- A computation fails with the first of some faults and succeeds if there are none. -/
structure Finds {α : Type} (x : Except Fault α) (faults : List Nat → Fault → Prop) : Prop where
  error_iff : ∀ e, x = .error e ↔ IsFirst faults e
  none_of_ok : ∀ a, x = .ok a → ∀ position e, ¬ faults position e

namespace Finds

variable {α β : Type} {x : Except Fault α} {faults others : List Nat → Fault → Prop}

theorem congr (h : Finds x faults) (hsame : ∀ position e, others position e ↔ faults position e) :
    Finds x others where
  error_iff e := (h.error_iff e).trans (IsFirst.congr fun position e => (hsame position e).symm)
  none_of_ok a hok position e hother := h.none_of_ok a hok position e ((hsame position e).1 hother)

theorem ok_iff (h : Finds x faults) :
    (∃ a, x = .ok a) ↔ ∀ position e, ¬ faults position e := by
  constructor
  · rintro ⟨a, ha⟩
    exact h.none_of_ok a ha
  · intro hnone
    cases hx : x with
    | ok a => exact ⟨a, rfl⟩
    | error e =>
        obtain ⟨position, hfault, -⟩ := (h.error_iff e).1 hx
        exact absurd hfault (hnone position e)

/-- A computation that can only fail at the root of what it reads. -/
theorem of_only_root {root : Fault → Prop} (h : ∀ e, x = .error e ↔ root e) :
    Finds x fun position e => position = [] ∧ root e where
  error_iff e := by
    constructor
    · intro hx
      exact (isFirst_of_root ⟨rfl, (h e).1 hx⟩).2 ⟨rfl, (h e).1 hx⟩
    · rintro ⟨position, ⟨-, hroot⟩, -⟩
      exact (h e).2 hroot
  none_of_ok a hok position e hfault := by
    rw [(h e).2 hfault.2] at hok
    cases hok

/-- A computation that fails at the root, whatever else is wrong. -/
theorem of_root {cause : Fault} (hx : x = .error cause) (h : ∀ e, faults [] e ↔ e = cause) :
    Finds x faults where
  error_iff e := by
    rw [isFirst_of_root ((h cause).2 rfl), h e, hx, Except.error.injEq, eq_comm]
  none_of_ok a hok := by
    rw [hx] at hok
    cases hok

/-- Going on in a way that cannot fail finds nothing more. -/
theorem bind_ok {f : α → Except Fault β} (h : Finds x faults)
    (hf : ∀ a, x = .ok a → ∃ b, f a = .ok b) : Finds (x >>= f) faults where
  error_iff e := by
    rw [← h.error_iff e, Success.bind_eq_error_iff, or_iff_left]
    rintro ⟨a, ha, hfault⟩
    obtain ⟨b, hb⟩ := hf a ha
    rw [hb] at hfault
    cases hfault
  none_of_ok b hb := by
    obtain ⟨a, ha, -⟩ := Success.bind_eq_ok_iff.1 hb
    exact h.none_of_ok a ha

theorem map (h : Finds x faults) (f : α → β) : Finds (x.map f) faults where
  error_iff e := by rw [Success.map_eq_error_iff, h.error_iff]
  none_of_ok b hb := by
    obtain ⟨a, ha, -⟩ := Success.map_eq_ok_iff.1 hb
    exact h.none_of_ok a ha

/-- If there is a fault at all, there is a first one. -/
theorem exists_first (h : Finds x faults) {position : List Nat} {fault : Fault}
    (hfault : faults position fault) : ∃ e, IsFirst faults e := by
  cases hx : x with
  | ok a => exact absurd hfault (h.none_of_ok a hx position fault)
  | error e => exact ⟨e, (h.error_iff e).1 hx⟩

/-- One entry after the other. -/
theorem cons {first rest : List Nat → Fault → Prop} {xs : Except Fault (List α)}
    (hx : Finds x first) (hxs : Finds xs rest) (hroot : ∀ e, ¬ faults [] e)
    (hfirst : ∀ position e, faults (0 :: position) e ↔ first position e)
    (hrest : ∀ index position e, faults ((index + 1) :: position) e ↔ rest (index :: position) e)
    (hnone : ∀ e, ¬ rest [] e) :
    Finds (x >>= fun a => xs >>= fun as => .ok (a :: as)) faults where
  error_iff e := by
    rw [isFirst_cons hroot hfirst hrest hnone, ← hx.error_iff, ← hxs.error_iff, ← hx.ok_iff,
      Success.bind_eq_error_iff]
    refine or_congr_right ?_
    simp only [Success.bind_eq_error_iff, reduceCtorEq, and_false, exists_false, or_false,
      exists_and_right]
  none_of_ok as hok := by
    obtain ⟨a, ha, hok⟩ := Success.bind_eq_ok_iff.1 hok
    obtain ⟨as, has, -⟩ := Success.bind_eq_ok_iff.1 hok
    rintro (_ | ⟨_ | index, position⟩) e hfault
    · exact hroot e hfault
    · exact hx.none_of_ok a ha _ _ ((hfirst _ _).1 hfault)
    · exact hxs.none_of_ok as has _ _ ((hrest _ _ _).1 hfault)

end Finds

end RowAccess
