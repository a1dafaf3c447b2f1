import Mathlib.Data.List.Nodup
import RowAccess.Proofs.AttributeMemo
import RowAccess.Proofs.Decoding
/-!
# Enumerations as declarations

An attribute can be declared by an enumeration of integers. What its conditions may then say are the
members met when going through the enumeration: other names of a member are unknown, and of a
combinable enumeration the named combinations are, under their name as well as by their number.
-/

namespace RowAccess

namespace Enumeration

variable {e : Enumeration} {m : Member} {name : String} {content : Content}

/-- An enumeration of integers in which every name is defined once. -/
structure OfIntegers (e : Enumeration) : Prop where
  nodup : (e.names.map (·.1)).Nodup
  number : ∀ entry ∈ e.names, ∃ n, entry.2 = .number n

theorem content_unique (h : (e.names.map (·.1)).Nodup) {other : Content}
    (hcontent : (name, content) ∈ e.names) (hother : (name, other) ∈ e.names) :
    content = other :=
  (Prod.mk.inj (List.inj_on_of_nodup_map h hcontent hother rfl)).2

/-- The member that carries a content goes by a name that was defined for it. -/
theorem carrying?_eq_some (h : e.carrying? content = some m) :
    m.enumeration = e.name ∧ (m.name, content) ∈ e.names ∧ m.content = content := by
  obtain ⟨entry, hentry, rfl⟩ := Option.map_eq_some_iff.1 h
  have hcontent : entry.2 = content := by simpa using List.find?_some hentry
  subst hcontent
  exact ⟨rfl, List.mem_of_find?_eq_some hentry, rfl⟩

theorem exists_carrying? (h : (name, content) ∈ e.names) :
    ∃ m, e.carrying? content = some m := by
  have hfound : (e.names.find? fun entry => entry.2 == content).isSome = true :=
    List.find?_isSome.2 ⟨_, h, beq_self_eq_true _⟩
  obtain ⟨entry, hentry⟩ := Option.isSome_iff_exists.1 hfound
  exact ⟨_, by rw [carrying?, hentry]; rfl⟩

/-- A name that is defined once stands for the member that carries its content. -/
theorem member?_eq (h : (e.names.map (·.1)).Nodup) (hentry : (name, content) ∈ e.names) :
    e.member? name = e.carrying? content := by
  have hfound : (e.names.find? fun entry => entry.1 == name).isSome = true :=
    List.find?_isSome.2 ⟨_, hentry, beq_self_eq_true _⟩
  obtain ⟨⟨name', content'⟩, hfirst⟩ := Option.isSome_iff_exists.1 hfound
  obtain rfl : name' = name := by simpa using List.find?_some hfirst
  obtain rfl : content' = content :=
    content_unique h (List.mem_of_find?_eq_some hfirst) hentry
  rw [member?, hfirst]
  rfl

/-- Going through an enumeration meets every member that carries a content, under its first name,
except for the combinations of a combinable enumeration. -/
theorem mem_members_iff : m ∈ e.members ↔
    e.carrying? m.content = some m ∧ (e.combinable = true → isSingle m.content = true) := by
  rw [members, List.mem_filterMap]
  constructor
  · rintro ⟨⟨name, content⟩, hentry, h⟩
    dsimp only at h
    split at h
    · rename_i found hfound
      split at h
      · rename_i hmet
        obtain rfl := Option.some.inj h
        obtain ⟨-, -, rfl⟩ := carrying?_eq_some hfound
        refine ⟨hfound, fun hcombinable => ?_⟩
        simpa [hcombinable] using (Bool.and_eq_true_iff.1 hmet).2
      · cases h
    · cases h
  · rintro ⟨hcarrying, hsingle⟩
    refine ⟨(m.name, m.content), (carrying?_eq_some hcarrying).2.1, ?_⟩
    dsimp only
    rw [hcarrying]
    dsimp only
    rw [if_pos]
    cases hcombinable : e.combinable <;> simp [hcombinable] at hsingle ⊢
    exact hsingle

theorem eq_of_name_eq {other : Member} (h : (e.names.map (·.1)).Nodup) (hm : m ∈ e.members)
    (hother : other ∈ e.members) (hname : other.name = m.name) : other = m := by
  have hcarrying := (mem_members_iff.1 hm).1
  have hcarrying' := (mem_members_iff.1 hother).1
  have hentry := (carrying?_eq_some hcarrying).2.1
  have hentry' := (carrying?_eq_some hcarrying').2.1
  rw [hname] at hentry'
  rw [content_unique h hentry' hentry, hcarrying] at hcarrying'
  exact (Option.some.inj hcarrying').symm

/-! ## What an enumeration declares -/

/-- The names that an enumeration declares, each with what is stored for it. -/
def entries (e : Enumeration) : List (Value × Value) :=
  e.members.map fun m => (.text m.name, .ofContent m.content)

theorem names_ofEnumeration : (Declaration.ofEnumeration e).names = .ok e.entries := rfl

theorem textLookup?_entries_eq_some_iff {v : Value} (h : (e.names.map (·.1)).Nodup) :
    Value.textLookup? name e.entries = some v ↔
      ∃ m ∈ e.members, m.name = name ∧ Value.ofContent m.content = v := by
  have hfound : ∀ {w}, Value.textLookup? name e.entries = some w →
      ∃ m ∈ e.members, m.name = name ∧ Value.ofContent m.content = w := by
    intro w hw
    obtain ⟨k, hentry, hequals⟩ := Value.mem_of_lookup? hw
    obtain ⟨m, hm, heq⟩ := List.mem_map.1 hentry
    obtain ⟨rfl, rfl⟩ := Prod.mk.inj heq
    exact ⟨m, hm, Value.equals_text_iff.1 hequals, rfl⟩
  refine ⟨hfound, ?_⟩
  rintro ⟨m, hm, rfl, rfl⟩
  have hsome : Value.textLookup? m.name e.entries ≠ none := by
    intro hnone
    have hunequal := Value.lookup?_eq_none_iff.1 hnone _ (List.mem_map_of_mem hm)
    rw [Value.equals_text_iff.2 rfl] at hunequal
    cases hunequal
  obtain ⟨w, hw⟩ := Option.ne_none_iff_exists'.1 hsome
  obtain ⟨other, hother, hname, rfl⟩ := hfound hw
  rw [hw, eq_of_name_eq h hm hother hname]

/-- Of the names of a member only its own one is declared, and only if the member is met. -/
theorem textLookup?_entries (h : (e.names.map (·.1)).Nodup) (hentry : (name, content) ∈ e.names)
    (hm : e.carrying? content = some m) :
    Value.textLookup? name e.entries =
      if m ∈ e.members ∧ m.name = name then some (.ofContent content) else none := by
  obtain ⟨-, -, rfl⟩ := carrying?_eq_some hm
  split
  · rename_i hmet
    exact (textLookup?_entries_eq_some_iff h).2 ⟨m, hmet.1, hmet.2, rfl⟩
  · rename_i hmet
    rw [Option.eq_none_iff_forall_ne_some]
    intro v hv
    obtain ⟨other, hother, rfl, -⟩ := (textLookup?_entries_eq_some_iff h).1 hv
    have hcarrying := (mem_members_iff.1 hother).1
    have hcontent := content_unique h hentry (carrying?_eq_some hcarrying).2.1
    rw [← hcontent, hm] at hcarrying
    obtain rfl := Option.some.inj hcarrying
    exact hmet ⟨hother, rfl⟩

theorem OfIntegers.number_of_mem (h : e.OfIntegers) (hm : m ∈ e.members) :
    ∃ n, m.content = .number n :=
  h.number _ (carrying?_eq_some (mem_members_iff.1 hm).1).2.1

/-- The enumeration attribute of an enumeration. -/
def asAttribute (e : Enumeration) (model key : String) : EnumAttribute := ⟨model, key, e.entries⟩

variable {model key : String} {n : Int}

theorem OfIntegers.asAttribute (h : e.OfIntegers) : (e.asAttribute model key).OfIntegers := by
  intro entry hentry
  obtain ⟨m, hm, rfl⟩ := List.mem_map.1 hentry
  obtain ⟨n, hn⟩ := h.number_of_mem hm
  exact ⟨n, by rw [hn]; rfl⟩

/-- The number of a member is stored exactly if the member is met. -/
theorem OfIntegers.stores_iff (h : e.OfIntegers) (hm : e.carrying? (.number n) = some m) :
    (e.asAttribute model key).stores n = true ↔ m ∈ e.members := by
  rw [h.asAttribute.stores_iff]
  constructor
  · rintro ⟨entry, hentry, heq⟩
    obtain ⟨other, hother, rfl⟩ := List.mem_map.1 hentry
    obtain ⟨k, hk⟩ := h.number_of_mem hother
    have hcarrying := (mem_members_iff.1 hother).1
    rw [hk] at heq hcarrying
    obtain rfl := Value.int.inj heq
    rw [hm] at hcarrying
    rwa [Option.some.inj hcarrying]
  · intro hmet
    exact ⟨_, List.mem_map_of_mem hmet, by rw [(carrying?_eq_some hm).2.2]; rfl⟩

/-- A name of an enumeration and its member. The member and its number are decoded to the number
exactly if the member is met, and the name exactly if it is moreover the member's own. -/
theorem OfIntegers.decode (h : e.OfIntegers) (hentry : (name, .number n) ∈ e.names)
    (hm : e.carrying? (.number n) = some m) :
    let decoder := e.asAttribute model key
    (decoder.decode (.member m) =
      if m ∈ e.members then .ok (.int n) else .error (decoder.invalid (.member m))) ∧
    (decoder.decode (.text name) =
      if m ∈ e.members ∧ m.name = name then .ok (.int n)
      else .error (decoder.invalid (.text name))) ∧
    decoder.decode (.int n) =
      if m ∈ e.members then .ok (.int n) else .error (decoder.invalid (.int n)) := by
  intro decoder
  have hown := textLookup?_entries h.nodup (carrying?_eq_some hm).2.1 hm
  have hname := textLookup?_entries h.nodup hentry hm
  have hnames : decoder.names = e.entries := rfl
  refine ⟨?_, ?_, ?_⟩
  · rw [EnumAttribute.decode_member, hnames, hown]
    split <;> simp_all [Value.ofContent]
  · rw [EnumAttribute.decode_text, hnames, hname]
    split <;> simp_all [Value.ofContent]
  · rw [EnumAttribute.decode_int]
    simp only [h.stores_iff hm, decoder]

end Enumeration

namespace Reflector

variable {M : Type} [DecidableEq M] {S : Schema M} {model : M} {key : String} {e : Enumeration}
  {history : List (Call M)}

/-- After some calls an attribute is declared by an enumeration: it was registered last for the
attribute, which is a column, or nothing was registered and the model declares it. -/
def DeclaredBy (S : Schema M) (history : List (Call M)) (model : M) (key : String)
    (e : Enumeration) : Prop :=
  (∃ earlier k later, history = earlier ++ .register model k (.ofEnumeration e) :: later ∧
    k.text? = some key ∧ ((S.model model).column? key).isSome = true ∧
    ∀ call ∈ later, call.registers? S model key = none) ∨
  (∀ call ∈ history, call.registers? S model key = none) ∧
    (S.model model).declaration? key = some (.ofEnumeration e)

theorem latest?_eq_none_iff :
    latest? S history model key = none ↔ ∀ call ∈ history, call.registers? S model key = none := by
  simp [latest?]

/-- What a declared enumeration is answered with. -/
theorem DeclaredBy.answerAfter_eq (h : DeclaredBy S history model key e) :
    answerAfter S history model key =
      .ok (.enumeration (e.asAttribute (S.model model).name key)) := by
  rw [answerAfter_eq_declaredKind, declaredKind_after, kindAfter]
  rcases h with ⟨earlier, k, later, rfl, hkey, hcolumn, hlater⟩ | ⟨hnone, hdeclared⟩
  · have hcall : Call.registers? S model key (.register model k (.ofEnumeration e)) =
        some e.entries := by
      simp [Call.registers?, hkey, hcolumn, Enumeration.names_ofEnumeration, Except.toOption]
    have hlatest : latest? S (earlier ++ .register model k (.ofEnumeration e) :: later) model key =
        some e.entries := by
      have hskip := latest?_eq_none_iff.2 hlater
      rw [latest?] at hskip
      rw [latest?, List.reverse_append, List.findSome?_append, List.reverse_cons,
        List.findSome?_append, hskip]
      simp [hcall]
    rw [hlatest]
    rfl
  · rw [latest?_eq_none_iff.2 hnone, hdeclared]
    rfl

/-- An attribute declared by an enumeration of integers, whatever was asked and registered before.
Every name stands for a member, which is met when going through the enumeration exactly if it is not
a combination. The member and its number are decoded to the number exactly if the member is met, and
the name exactly if it is moreover the member's first one; everything else is refused. -/
theorem decode_declared (he : e.OfIntegers) (hdeclared : DeclaredBy S history model key e) :
    ∃ decoder, answerAfter S history model key = .ok (.enumeration decoder) ∧
      ∀ name content, (name, content) ∈ e.names →
        ∃ m n, e.member? name = some m ∧ m.content = content ∧ content = .number n ∧
          (m ∈ e.members ↔ (e.combinable = true → Enumeration.isSingle content = true)) ∧
          (decoder.decode (.member m) =
            if m ∈ e.members then .ok (.int n) else .error (decoder.invalid (.member m))) ∧
          (decoder.decode (.text name) =
            if m ∈ e.members ∧ m.name = name then .ok (.int n)
            else .error (decoder.invalid (.text name))) ∧
          decoder.decode (.int n) =
            if m ∈ e.members then .ok (.int n) else .error (decoder.invalid (.int n)) := by
  refine ⟨_, hdeclared.answerAfter_eq, ?_⟩
  intro name content hentry
  obtain ⟨n, hn⟩ := he.number _ hentry
  obtain rfl : content = .number n := hn
  obtain ⟨m, hm⟩ := Enumeration.exists_carrying? hentry
  have hmember := (Enumeration.member?_eq he.nodup hentry).trans hm
  have hcontent := (Enumeration.carrying?_eq_some hm).2.2
  refine ⟨m, n, hmember, hcontent, rfl, ?_, he.decode hentry hm⟩
  rw [Enumeration.mem_members_iff, hcontent]
  exact and_iff_right hm

open Sample in
/-- Permissions registered for the tier of documents: a single permission is decoded, and a
combination is refused. -/
theorem decode_declared_permissions :
    let history : List (Call Entity) := [.register .document (.text "tier") (.ofEnumeration perm)]
    perm.OfIntegers ∧ DeclaredBy schema history .document "tier" perm ∧
      ∃ decoder, answerAfter schema history .document "tier" = .ok (.enumeration decoder) ∧
        (∃ m, perm.member? "WRITE" = some m ∧ decoder.decode (.member m) = .ok (.int 2)) ∧
        ∃ m, perm.member? "RW" = some m ∧
          decoder.decode (.member m) = .error (decoder.invalid (.member m)) := by
  intro history
  have hintegers : perm.OfIntegers := ⟨by decide, by simp [perm]⟩
  have hdeclared : DeclaredBy schema history .document "tier" perm :=
    .inl ⟨[], .text "tier", [], rfl, rfl, rfl, by simp⟩
  obtain ⟨decoder, hanswer, hnames⟩ := decode_declared hintegers hdeclared
  refine ⟨hintegers, hdeclared, decoder, hanswer, ?_, ?_⟩
  · obtain ⟨m, n, hm, hcontent, hn, hmet, hdecode, -⟩ :=
      hnames "WRITE" (.number 2) (by decide)
    obtain rfl : n = 2 := (Content.number.inj hn).symm
    rw [if_pos (hmet.2 fun _ => by decide)] at hdecode
    exact ⟨m, hm, hdecode⟩
  · obtain ⟨m, n, hm, hcontent, hn, hmet, hdecode, -⟩ := hnames "RW" (.number 3) (by decide)
    rw [if_neg fun hmem => absurd (hmet.1 hmem rfl) (by decide)] at hdecode
    exact ⟨m, hm, hdecode⟩

open Sample in
/-- A combination of permissions is refused by its name, as a member and as a number, and the other
name of a letter is refused as well. -/
theorem declared_name_refused :
    let history : List (Call Entity) := [.register .document (.text "tier") (.ofEnumeration perm)]
    (∃ decoder m, answerAfter schema history .document "tier" = .ok (.enumeration decoder) ∧
      ("RW", .number 3) ∈ perm.names ∧ perm.member? "RW" = some m ∧
      decoder.decode (.member m) = .error (decoder.invalid (.member m)) ∧
      decoder.decode (.text "RW") = .error (decoder.invalid (.text "RW")) ∧
      decoder.decode (.int 3) = .error (decoder.invalid (.int 3))) ∧
    ∃ decoder m, answerAfter schema [] .article "kind" = .ok (.enumeration decoder) ∧
      ("missive", .number (-3)) ∈ Sample.kind.names ∧ Sample.kind.member? "missive" = some m ∧
      decoder.decode (.member m) = .ok (.int (-3)) ∧
      decoder.decode (.text "missive") = .error (decoder.invalid (.text "missive")) := by
  intro history
  exact ⟨⟨_, ⟨"Perm", "RW", .number 3⟩, rfl, by decide, rfl, rfl, rfl, rfl⟩,
    ⟨_, ⟨"Kind", "letter", .number (-3)⟩, rfl, by decide, rfl, rfl, rfl⟩⟩

end Reflector

end RowAccess
