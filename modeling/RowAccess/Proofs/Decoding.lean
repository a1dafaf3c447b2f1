import RowAccess.Proofs.Success
import RowAccess.Reflector
/-!
# Decoding

What a value of a condition is decoded to on an enumeration attribute. Names and members are looked
up by their name, integers among what is stored, and nothing else is accepted. Where every name
stands for an integer, that integer can be spelled in several ways which are decoded alike.
-/

namespace RowAccess

namespace Value

theorem equals_int_iff {m n : Int} : (int m).equals (.int n) = true ↔ m = n := by
  simp [equals, quantity?, Exact.equals_ofInt]

theorem equals_text_iff {s t : String} : (text s).equals (.text t) = true ↔ s = t := by
  simp [equals_iff_of_text?_right (show (text t).text? = some t from rfl), text?]

theorem mem_of_lookup? {key v : Value} {entries : List (Value × Value)}
    (h : lookup? key entries = some v) : ∃ k, (k, v) ∈ entries ∧ k.equals key = true := by
  induction entries with
  | nil => cases h
  | cons entry rest ih =>
      obtain ⟨k, w⟩ := entry
      rw [lookup?] at h
      split at h
      · rename_i hequals
        obtain rfl := Option.some.inj h
        exact ⟨k, by simp, hequals⟩
      · obtain ⟨k', hk', hequals⟩ := ih h
        exact ⟨k', by simp [hk'], hequals⟩

theorem lookup?_eq_none_iff {key : Value} {entries : List (Value × Value)} :
    lookup? key entries = none ↔ ∀ entry ∈ entries, entry.1.equals key = false := by
  induction entries with
  | nil => simp [lookup?]
  | cons entry rest ih =>
      rw [List.forall_mem_cons, ← ih, lookup?]
      cases entry.1.equals key <;> simp

end Value

namespace EnumAttribute

variable {e : EnumAttribute} {v w : Value} {m : Member} {s : String} {n : Int}

/-- The fault of a value that nothing is stored for. -/
def invalid (e : EnumAttribute) (v : Value) : Fault :=
  .invalidEnumValue (.text e.model) (.text e.key) v

theorem stores_iff : e.stores n = true ↔ ∃ entry ∈ e.names, entry.2.equals (.int n) = true :=
  List.any_eq_true

/-! ## What each kind of value is decoded to -/

@[simp] theorem decode_null : e.decode .null = .ok .null := rfl

theorem decode_text : e.decode (.text s) =
    match Value.textLookup? s e.names with
    | some stored => .ok stored
    | none => .error (e.invalid (.text s)) := rfl

theorem decode_member : e.decode (.member m) =
    match Value.textLookup? m.name e.names with
    | some stored => .ok stored
    | none => .error (e.invalid (.member m)) := rfl

theorem decode_int : e.decode (.int n) =
    if e.stores n then .ok (.int n) else .error (e.invalid (.int n)) := rfl

/-- A value is decoded if it is absent, a name or a member of that name, or a stored integer. -/
theorem decode_eq_ok_iff : e.decode v = .ok w ↔
    v = .null ∧ w = .null ∨
      (∃ s, symbol v = .text s ∧ Value.textLookup? s e.names = some w) ∨
      ∃ n, v = .int n ∧ e.stores n = true ∧ w = .int n := by
  have hlookup : ∀ (s : String) (fault : Fault),
      (match Value.textLookup? s e.names with
        | some stored => Except.ok stored
        | none => .error fault) = .ok w ↔ Value.textLookup? s e.names = some w := by
    intro s fault
    cases Value.textLookup? s e.names <;> simp
  cases v with
  | null => simpa [symbol] using eq_comm
  | text s => simp [decode_text, hlookup, symbol]
  | member m => simp [decode_member, hlookup, symbol]
  | int n =>
      rw [decode_int]
      cases hstores : e.stores n with
      | false => simp [symbol, hstores]
      | true => simpa [symbol, hstores] using eq_comm
  | _ => simp [decode, symbol]

/-! ## Spellings of a stored integer -/

/-- A value spells a stored integer: it is a name of it, a member of such a name, or the integer
itself. -/
def Spells (e : EnumAttribute) (n : Int) : Value → Prop
  | .text s => Value.textLookup? s e.names = some (.int n)
  | .member m => Value.textLookup? m.name e.names = some (.int n)
  | .int k => k = n ∧ ∃ name, (name, Value.int n) ∈ e.names
  | _ => False

theorem Spells.isScalar (h : e.Spells n v) : v.isScalar = true := by
  cases v with
  | text | member | int => rfl
  | _ => exact h.elim

/-- The integer that is spelled is stored, and so it spells itself. -/
theorem Spells.stored (h : e.Spells n v) : e.Spells n (.int n) := by
  refine ⟨rfl, ?_⟩
  cases v with
  | text | member =>
      obtain ⟨key, hentry, -⟩ := Value.mem_of_lookup? h
      exact ⟨key, hentry⟩
  | int => exact h.2
  | _ => exact h.elim

theorem Spells.decode (h : e.Spells n v) : e.decode v = .ok (.int n) := by
  cases v with
  | text s =>
      have hlookup : Value.textLookup? s e.names = some (.int n) := h
      rw [decode_text, hlookup]
  | member m =>
      have hlookup : Value.textLookup? m.name e.names = some (.int n) := h
      rw [decode_member, hlookup]
  | int k =>
      obtain ⟨rfl, name, hentry⟩ := h
      have hstores : e.stores k = true := stores_iff.2 ⟨_, hentry, Value.equals_int_iff.2 rfl⟩
      rw [decode_int, if_pos hstores]
  | _ => exact h.elim

/-- Two values ask for the same: they are the same, or spell the same integer. -/
def Alike (e : EnumAttribute) (v w : Value) : Prop := v = w ∨ ∃ n, e.Spells n v ∧ e.Spells n w

theorem Alike.decode_eq (h : e.Alike v w) : e.decode v = e.decode w := by
  obtain rfl | ⟨n, hv, hw⟩ := h
  · rfl
  · rw [hv.decode, hw.decode]

theorem Alike.isScalar_eq (h : e.Alike v w) : v.isScalar = w.isScalar := by
  obtain rfl | ⟨n, hv, hw⟩ := h
  · rfl
  · rw [hv.isScalar, hw.isScalar]

/-! ## Names that stand for integers -/

/-- Every name stands for an integer. -/
def OfIntegers (e : EnumAttribute) : Prop := ∀ entry ∈ e.names, ∃ n, entry.2 = .int n

theorem OfIntegers.stores_iff (h : e.OfIntegers) :
    e.stores n = true ↔ ∃ entry ∈ e.names, entry.2 = .int n := by
  rw [EnumAttribute.stores_iff]
  refine exists_congr fun entry => and_congr_right fun hentry => ?_
  obtain ⟨k, hk⟩ := h entry hentry
  rw [hk, Value.equals_int_iff, Value.int.injEq]

/-- Only the absent value and the spellings of an integer are decoded. -/
theorem OfIntegers.decode_eq_ok_iff (h : e.OfIntegers) :
    e.decode v = .ok w ↔ v = .null ∧ w = .null ∨ ∃ n, e.Spells n v ∧ w = .int n := by
  constructor
  · rw [EnumAttribute.decode_eq_ok_iff]
    rintro (hnull | ⟨s, hs, hlookup⟩ | ⟨n, rfl, hstores, rfl⟩)
    · exact .inl hnull
    · obtain ⟨key, hentry, -⟩ := Value.mem_of_lookup? hlookup
      obtain ⟨n, rfl⟩ := h _ hentry
      right
      refine ⟨n, ?_, rfl⟩
      cases v with
      | text | member =>
          obtain rfl := Value.text.inj hs
          exact hlookup
      | _ => cases hs
    · obtain ⟨⟨name, _⟩, hentry, rfl⟩ := h.stores_iff.1 hstores
      exact .inr ⟨n, ⟨rfl, name, hentry⟩, rfl⟩
  · rintro (⟨rfl, rfl⟩ | ⟨n, hspells, rfl⟩)
    · rfl
    · exact hspells.decode

/-- A value asks for the same as what it is decoded to. -/
theorem OfIntegers.alike_of_decode (h : e.OfIntegers) (hw : e.decode v = .ok w) :
    e.Alike v w := by
  obtain ⟨rfl, rfl⟩ | ⟨n, hspells, rfl⟩ := h.decode_eq_ok_iff.1 hw
  · exact .inl rfl
  · exact .inr ⟨n, hspells, hspells.stored⟩

end EnumAttribute

end RowAccess
