import SchemaByExample.Proofs.Schema.Fields

/-! The JSON form of a schema determines the schema: each field that is set is found in it
under its name, and each value of a field determines what is set. -/
namespace SchemaByExample.Schema

open Json

theorem name_injective {f g : Field} (h : f.name = g.name) : f = g := by
  have hf := congrArg Field.ofName? h
  rw [Field.ofName?_name, Field.ofName?_name] at hf
  exact Option.some.inj hf

/-- Among the members for some fields, that of a field stands under its name. -/
theorem find?_written (s : Schema) (f : Field) (fields : List Field) :
    Members.find? f.name (s.written fields) = if f ∈ fields then s.value? f else none := by
  induction fields with
  | nil => rfl
  | cons g rest ih =>
    by_cases hg : g = f
    · subst hg
      cases hv : s.value? g with
      | none =>
        rw [written_cons_none hv, ih, hv]
        simp
      | some v =>
        rw [written_cons_some hv]
        simp [Members.find?]
    · have hname : g.name ≠ f.name := fun h => hg (name_injective h)
      have hmem : (f ∈ g :: rest) = (f ∈ rest) := by simp [Ne.symm hg]
      simp only [hmem, ← ih]
      cases hv : s.value? g with
      | none => rw [written_cons_none hv]
      | some v => rw [written_cons_some hv, Members.find?, if_neg hname]

theorem value?_eq_of_toJson {s t : Schema} {position : Position}
    (h : s.toJson position = t.toJson position) (f : Field) : s.value? f = t.value? f := by
  rw [toJson_eq_written, toJson_eq_written, object.injEq] at h
  have hf := congrArg (Members.find? f.name) h
  have hmem : f ∈ fieldOrder position := by cases position <;> cases f <;> decide
  rwa [find?_written, find?_written, if_pos hmem, if_pos hmem] at hf

theorem kindName_injective {k l : Kind} (h : k.name = l.name) : k = l := by
  have hk := congrArg Kind.ofName? h
  rw [Kind.ofName?_name, Kind.ofName?_name] at hk
  exact Option.some.inj hk

theorem natural_injective {m n : UInt32} (h : natural m = natural n) : m = n := by
  simp only [natural, number.injEq, JsonNumber.word.injEq, Word.mk.injEq] at h
  exact UInt32.toNat_inj.mp (by omega)

/-- Optional values with one image are equal, if the image determines each value. -/
theorem option_eq_of_map_eq {α β : Type} {f : α → β} {o p : Option α} (h : o.map f = p.map f)
    (hf : ∀ a, o = some a → ∀ b, p = some b → f a = f b → a = b) : o = p := by
  cases o with
  | none => exact (Option.map_eq_none_iff.mp h.symm).symm
  | some a =>
    cases p with
    | none => simp at h
    | some b => rw [hf a rfl b rfl (Option.some.inj h)]

theorem names_injective {a b : List String} (h : a.map string = b.map string) : a = b :=
  (List.map_inj_right fun _ _ => string.inj).mp h

/-- Two schemas with one JSON form are equal. -/
theorem toJson_injective {s t : Schema} {position : Position}
    (h : s.toJson position = t.toJson position) : s = t := by
  induction s using parts_induction generalizing t position with
  | step s hitems hproperties =>
    have hv := value?_eq_of_toJson h
    have hstring {o p : Option String} (ho : o.map string = p.map string) : o = p :=
      option_eq_of_map_eq ho fun a _ b _ => string.inj
    have hnatural {o p : Option UInt32} (ho : o.map natural = p.map natural) : o = p :=
      option_eq_of_map_eq ho fun a _ b _ => natural_injective
    have hdialect : s.dialect = t.dialect := hstring (hv .dialect)
    have hdescription : s.description = t.description := hstring (hv .description)
    have hkind : s.kind = t.kind :=
      option_eq_of_map_eq (hv .kind) fun a _ b _ hab => kindName_injective (string.inj hab)
    have hminLength : s.minLength = t.minLength := hnatural (hv .minLength)
    have hminItems : s.minItems = t.minItems := hnatural (hv .minItems)
    have huniqueItems : s.uniqueItems = t.uniqueItems :=
      option_eq_of_map_eq (hv .uniqueItems) fun a _ b _ => bool.inj
    have hinner : s.items = t.items :=
      option_eq_of_map_eq (hv .items) fun a ha b _ => hitems a ha
    have hmembers : s.properties = t.properties := by
      refine option_eq_of_map_eq (hv .properties) fun ps hps qs _ hpq => ?_
      exact Members.eq_of_map_eq (object.inj hpq) fun p hp q _ => hproperties ps hps p hp
    have hrequired : s.required = t.required :=
      option_eq_of_map_eq (hv .required) fun a _ b _ hab => names_injective (array.inj hab)
    cases s
    cases t
    simp_all

end SchemaByExample.Schema
