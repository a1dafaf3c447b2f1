import Mathlib.Algebra.Field.Rat
import Mathlib.Algebra.Order.Field.Basic
import Mathlib.Algebra.Order.Ring.Rat
import Mathlib.Data.List.Lex
import Mathlib.Data.String.Basic
import Mathlib.Data.Sum.Order
import Mathlib.Order.WithBot
import RowAccess.Database.Evaluation
/-!
# The order of cells

Cells are compared in kinds: empty ones first, then numbers by their quantity, texts, and byte
strings. This is the order of a line on which every cell has its place, as long as no number is
undefined, which the database never stores. So lists of such cells can be sorted.
-/

namespace RowAccess

namespace Exact

/-- The place of a quantity among the rational numbers and both infinities. What is undefined has
none of its own. -/
def place : Exact → WithBot (WithTop ℚ)
  | .undefined | .infinite true => ⊥
  | .infinite false => ((⊤ : WithTop ℚ) : WithBot (WithTop ℚ))
  | .ratio n d => (((n : ℚ) / d : ℚ) : WithTop ℚ)

/-- A quantity that can be compared: it is defined, and a fraction has a positive denominator. -/
def Proper : Exact → Prop
  | .undefined => False
  | .infinite _ => True
  | .ratio _ d => 0 < d

theorem ratio_lt_iff {n m : Int} {d e : Nat} (hd : 0 < d) (he : 0 < e) :
    (n : ℚ) / d < m / e ↔ n * (e : Int) < m * (d : Int) := by
  rw [div_lt_div_iff₀ (by exact_mod_cast hd) (by exact_mod_cast he)]
  exact_mod_cast Iff.rfl

theorem less_iff {x y : Exact} (hx : x.Proper) (hy : y.Proper) :
    x.less y = true ↔ x.place < y.place := by
  cases x with
  | undefined => exact absurd hx id
  | infinite s =>
      cases y with
      | undefined => exact absurd hy id
      | infinite t => cases s <;> cases t <;> simp [less, place]
      | ratio m e => cases s <;> simp [less, place]
  | ratio n d =>
      cases y with
      | undefined => exact absurd hy id
      | infinite t =>
          cases t with
          | true => simp [less, place]
          | false => exact iff_of_true rfl (WithBot.coe_lt_coe.2 (WithTop.coe_lt_top _))
      | ratio m e => simp [less, place, ratio_lt_iff hx hy]

end Exact

theorem Binary64.proper_exact {x : Binary64} (h : x ≠ .undefined) : x.exact.Proper := by
  cases x with
  | undefined => exact absurd rfl h
  | infinite negative => trivial
  | finite negative significand exponent =>
      simp only [exact, Exact.Proper]
      split
      · exact Nat.one_pos
      · exact Nat.pow_pos Nat.two_pos

namespace Cell

/-- A cell as the database keeps it: it holds no undefined number. -/
def Settled (c : Cell) : Prop := c ≠ .real .undefined

instance (c : Cell) : Decidable c.Settled := inferInstanceAs (Decidable (c ≠ .real .undefined))

/-- What cells hold, in order: numbers, texts, byte strings. -/
abbrev Content := WithBot (WithTop ℚ) ⊕ₗ (String ⊕ₗ List Nat)

/-- The line of cells, with the empty one below all contents. -/
abbrev Place := WithBot Content

/-- Where a cell stands. -/
def place : Cell → Place
  | .null => ⊥
  | .int n => (Sum.inlₗ (Exact.ofInt n).place : Content)
  | .real x => (Sum.inlₗ x.exact.place : Content)
  | .text s => (Sum.inrₗ (Sum.inlₗ s) : Content)
  | .blob content => (Sum.inrₗ (Sum.inrₗ (content.map UInt8.toNat)) : Content)

theorem bytes_lt_iff {b e : List UInt8} : b < e ↔ b.map UInt8.toNat < e.map UInt8.toNat := by
  induction b generalizing e with
  | nil => cases e <;> simp
  | cons x b ih =>
      cases e with
      | nil => simp
      | cons y e =>
          rw [List.map_cons, List.map_cons, List.cons_lt_cons_iff, List.cons_lt_cons_iff, ih,
            UInt8.lt_iff_toNat_lt, UInt8.toNat_inj]

/-- Settled cells are compared by where they stand. -/
theorem less_iff {c d : Cell} (hc : c.Settled) (hd : d.Settled) :
    c.less d = true ↔ c.place < d.place := by
  have hint : ∀ n : Int, (Exact.ofInt n).Proper := fun n => Nat.one_pos
  have hreal : ∀ x : Binary64, (Cell.real x).Settled → x.exact.Proper := fun x hx =>
    Binary64.proper_exact fun h => hx (congrArg Cell.real h)
  -- Within a kind the order is that of what the cells hold, and between kinds that of the kinds.
  cases c <;> cases d <;>
    simp [less, place, quantity?, rank, Exact.less_iff, bytes_lt_iff, *]

/-- Where the cells of a list stand. -/
def places (cs : List Cell) : List Place := cs.map place

@[simp] theorem places_nil : places [] = [] := rfl

@[simp] theorem places_cons (c : Cell) (cs : List Cell) :
    places (c :: cs) = c.place :: places cs := rfl

/-- Lists of settled cells are compared by the first cell that stands elsewhere. -/
theorem lessThan_iff {cs ds : List Cell} (hcs : ∀ c ∈ cs, c.Settled) (hds : ∀ d ∈ ds, d.Settled) :
    lessThan cs ds = true ↔ places cs < places ds := by
  induction cs generalizing ds with
  | nil => cases ds <;> simp [lessThan]
  | cons c cs ih =>
      cases ds with
      | nil => simp [lessThan]
      | cons d ds =>
          rw [List.forall_mem_cons] at hcs hds
          have hback : (!d.less c) = true ↔ c.place ≤ d.place := by
            rw [Bool.not_eq_true', Bool.eq_false_iff, Ne, less_iff hds.1 hcs.1, not_lt]
          rw [lessThan, Bool.or_eq_true, Bool.and_eq_true, less_iff hcs.1 hds.1, hback,
            ih hcs.2 hds.2, places_cons, places_cons, List.cons_lt_cons_iff]
          constructor
          · rintro (hlt | ⟨hle, hrest⟩)
            · exact .inl hlt
            · exact hle.lt_or_eq.imp_right fun heq => ⟨heq, hrest⟩
          · exact Or.imp_right fun ⟨heq, hrest⟩ => ⟨heq.le, hrest⟩

end Cell

/-- Elements whose keys are settled can be sorted by their keys: in the sorted list none stands
behind one that it is below. -/
theorem pairwise_mergeSort_lessThan {α : Type} {key : α → List Cell} {xs : List α}
    (h : ∀ x ∈ xs, ∀ c ∈ key x, c.Settled) :
    (xs.mergeSort fun x y => !Cell.lessThan (key y) (key x)).Pairwise fun x y =>
      Cell.lessThan (key y) (key x) = false := by
  have hle : ∀ x ∈ xs, ∀ y ∈ xs, (!Cell.lessThan (key y) (key x)) =
      decide (Cell.places (key x) ≤ Cell.places (key y)) := by
    intro x hx y hy
    rw [Bool.eq_iff_iff, Bool.not_eq_true', Bool.eq_false_iff, Ne,
      Cell.lessThan_iff (h y hy) (h x hx), not_lt, decide_eq_true_iff]
  have hsame : (xs.mergeSort fun x y => !Cell.lessThan (key y) (key x)) =
      xs.mergeSort fun x y => decide (Cell.places (key x) ≤ Cell.places (key y)) := by
    simpa using List.map_mergeSort (f := id) (l := xs)
      (s := fun x y => decide (Cell.places (key x) ≤ Cell.places (key y))) hle
  have hsorted : (xs.mergeSort fun x y =>
      decide (Cell.places (key x) ≤ Cell.places (key y))).Pairwise fun x y =>
        decide (Cell.places (key x) ≤ Cell.places (key y)) = true :=
    List.pairwise_mergeSort (by simpa using fun x y z => le_trans)
      (by simpa using fun x y => le_total _ _) xs
  rw [hsame]
  refine hsorted.imp_of_mem fun hx hy hxy => ?_
  rw [List.mem_mergeSort] at hx hy
  rw [← hle _ hx _ hy] at hxy
  simpa using hxy

end RowAccess
