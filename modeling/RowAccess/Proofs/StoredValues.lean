import RowAccess.Database.Binding
import RowAccess.Proofs.Success
/-!
# What values are stored as

The database takes most values as cells of their own. Only the absent value and numbers that are
undefined leave a cell empty, which is why these two behave unlike all others in comparisons.
-/

namespace RowAccess

/-- Taken for a double, the value is an undefined one: an undefined double or decimal, or a text
that spells one out. -/
def Value.isUndefined (v : Value) : Bool := Binding.double? v == some .undefined

namespace Binary64

theorem infinite_or_finite_ne_undefined (negative : Bool) (p : Prop) [Decidable p]
    (significand : Nat) (exponent : Int) :
    (if p then infinite negative else finite negative significand exponent) ≠ .undefined := by
  split <;> simp

theorem ofFraction_ne_undefined (negative : Bool) (numerator denominator : Nat) :
    ofFraction negative numerator denominator ≠ .undefined := by
  unfold ofFraction
  split
  · simp [zero]
  · exact infinite_or_finite_ne_undefined negative _ _ _

theorem ofInt_ne_undefined (n : Int) : ofInt n ≠ .undefined := ofFraction_ne_undefined _ _ _

end Binary64

/-! ## Values that are never undefined -/

namespace Value

@[simp] theorem isUndefined_null : isUndefined .null = false := rfl

@[simp] theorem isUndefined_bool (b : Bool) : (bool b).isUndefined = false := by
  simp [isUndefined, Binding.double?, Binary64.ofInt_ne_undefined]

@[simp] theorem isUndefined_int (n : Int) : (int n).isUndefined = false := by
  have hdouble : Binding.double? (int n) = Binding.nearest? n := rfl
  rw [isUndefined, hdouble, Binding.nearest?]
  split
  · rfl
  · simp [Binary64.ofInt_ne_undefined]

end Value

/-! ## Cells that are not empty -/

namespace Cell

theorem ofInt_ne_null (n : Int) : ofInt n ≠ .null := by
  unfold ofInt
  split <;> simp

theorem ofDouble_ne_null {x : Binary64} (h : x ≠ .undefined) : ofDouble x ≠ .null := by
  cases x with
  | undefined => exact absurd rfl h
  | _ => simp [ofDouble]

theorem ofNumeral_ne_null (digitsAlone : Bool) (numeral : Numeral) :
    ofNumeral digitsAlone numeral ≠ .null := by
  unfold ofNumeral
  split
  · split
    · exact ofInt_ne_null _
    · simp
  · simp

theorem readNumber?_ne_null (s : String) : readNumber? s ≠ some .null := by
  intro h
  obtain ⟨numeral, -, hcell⟩ := Option.map_eq_some_iff.1 h
  exact ofNumeral_ne_null _ _ hcell

end Cell

theorem Affinity.adapt_ne_null {side : Affinity} {cell : Cell} (h : cell ≠ .null) :
    side.adapt cell ≠ .null := by
  unfold adapt
  split
  · rename_i s
    cases hs : Cell.readNumber? s with
    | none => simp
    | some found =>
        rintro rfl
        exact Cell.readNumber?_ne_null s hs
  · simp
  · simp
  · exact h

namespace Binding

theorem integer_ne_null {n : Int} {cell : Cell} (h : integer n = .ok cell) : cell ≠ .null := by
  unfold integer at h
  split at h
  · cases h
    simp
  · cases h

theorem unconverted_ne_null {v : Value} {cell : Cell} (hv : v.isUndefined = false)
    (h : unconverted v = .ok cell) : cell ≠ .null := by
  unfold unconverted at h
  split at h
  case h_2 x _ _ =>
    cases h
    refine Cell.ofDouble_ne_null ?_
    rintro rfl
    cases hv
  case h_7 => exact integer_ne_null h
  all_goals
    cases h
  all_goals simp

theorem converted?_ne_null {type : ColumnType} {v : Value} (hv : v.isUndefined = false) :
    converted? type v ≠ some .null := by
  intro h
  unfold converted? at h
  split at h
  case h_2 | h_3 =>
    obtain ⟨x, hx, hcell⟩ := Option.map_eq_some_iff.1 h
    refine Cell.ofDouble_ne_null ?_ hcell
    rintro rfl
    rw [Value.isUndefined, hx] at hv
    cases hv
  all_goals simp at h

/-- A value that is defined is never stored as an empty cell. -/
theorem parameter_ne_null {type : ColumnType} {v : Value} {cell : Cell}
    (hv : v.isUndefined = false) (h : parameter type v = .ok cell) : cell ≠ .null := by
  unfold parameter at h
  split at h
  · exact unconverted_ne_null hv h
  · exact unconverted_ne_null hv h
  · split at h
    · rename_i found hfound
      cases h
      rintro rfl
      exact converted?_ne_null hv hfound
    · cases h

theorem list_ne_null {c : Column} {values : List Value} {stored : List Cell}
    (hvalues : ∀ v ∈ values, v.isUndefined = false) (h : list c values = .ok stored) :
    Cell.null ∉ stored := by
  cases values with
  | nil =>
      cases h
      simp
  | cons first rest =>
      intro hnull
      obtain ⟨v, hv, hcell⟩ := (Success.mem_of_mapM h).1 hnull
      obtain ⟨cell, hparameter, hadapt⟩ := Success.map_eq_ok_iff.1 hcell
      exact Affinity.adapt_ne_null (parameter_ne_null (hvalues v hv) hparameter) hadapt

end Binding

end RowAccess
