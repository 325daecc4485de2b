import SchemaByExample.Proofs.Json.Parts

/-! Values that differ in the order of members. Their arrays are homogeneous together, and
their parts correspond to each other under the same names. -/
namespace SchemaByExample.Json

mutual

/-- Values that are equal up to the order of members, at any depth. Items keep their order,
but not those of an array that stands under a loose name. -/
inductive Reordered (loose : List String) : Json → Json → Prop
  | scalar {v : Json} : v.isContainer = false → Reordered loose v v
  | array {items others : List Json} :
      ReorderedItems loose items others → Reordered loose (.array items) (.array others)
  | object {members aligned others : List (String × Json)} :
      ReorderedMembers loose members aligned → aligned.Perm others →
        Reordered loose (.object members) (.object others)

inductive ReorderedItems (loose : List String) : List Json → List Json → Prop
  | nil : ReorderedItems loose [] []
  | cons {v w : Json} {items others : List Json} :
      Reordered loose v w → ReorderedItems loose items others →
        ReorderedItems loose (v :: items) (w :: others)

inductive ReorderedMembers (loose : List String) :
    List (String × Json) → List (String × Json) → Prop
  | nil : ReorderedMembers loose [] []
  | cons {v w : Json} {members others : List (String × Json)} (k : String) :
      Reordered loose v w → ReorderedMembers loose members others →
        ReorderedMembers loose ((k, v) :: members) ((k, w) :: others)
  | shuffle {k : String} {items moved : List Json} {members others : List (String × Json)} :
      k ∈ loose → items.Perm moved → ReorderedMembers loose members others →
        ReorderedMembers loose ((k, .array items) :: members) ((k, .array moved) :: others)

end

variable {loose : List String}

mutual

theorem Reordered.refl : (v : Json) → Reordered loose v v
  | .array items => .array (ReorderedItems.refl items)
  | .object members => .object (ReorderedMembers.refl members) (List.Perm.refl members)
  | .null => .scalar rfl
  | .bool _ => .scalar rfl
  | .number _ => .scalar rfl
  | .string _ => .scalar rfl

theorem ReorderedItems.refl : (items : List Json) → ReorderedItems loose items items
  | [] => .nil
  | v :: rest => .cons (Reordered.refl v) (ReorderedItems.refl rest)

theorem ReorderedMembers.refl :
    (members : List (String × Json)) → ReorderedMembers loose members members
  | [] => .nil
  | (k, v) :: rest => .cons k (Reordered.refl v) (ReorderedMembers.refl rest)

end

theorem ReorderedMembers.append {members others more rest : List (String × Json)}
    (h : ReorderedMembers loose members others) (hm : ReorderedMembers loose more rest) :
    ReorderedMembers loose (members ++ more) (others ++ rest) := by
  induction members generalizing others with
  | nil =>
    cases h
    exact hm
  | cons p members ih =>
    cases h with
    | cons k hv h => exact .cons k hv (ih h)
    | shuffle hk hp h => exact .shuffle hk hp (ih h)

theorem ReorderedMembers.keys_eq {members others : List (String × Json)}
    (h : ReorderedMembers loose members others) : Members.keys members = Members.keys others := by
  induction members generalizing others with
  | nil =>
    cases h
    rfl
  | cons p members ih =>
    cases h with
    | cons k _ h => exact congrArg (k :: ·) (ih h)
    | shuffle _ _ h => exact congrArg (_ :: ·) (ih h)

section Values

variable {v w : Json} (h : Reordered loose v w)
include h

theorem Reordered.isContainer_eq : v.isContainer = w.isContainer := by
  cases h with
  | scalar _ => rfl
  | array _ => rfl
  | object _ _ => rfl

theorem Reordered.isNull_eq : v.isNull = w.isNull := by
  cases h with
  | scalar _ => rfl
  | array _ => rfl
  | object _ _ => rfl

theorem Reordered.hasNames_eq (names : List String) : hasNames names v = hasNames names w := by
  cases h with
  | scalar _ => rfl
  | array _ => rfl
  | @object members aligned others hm hp =>
    have hkeys (k : String) : k ∈ Members.keys members ↔ k ∈ Members.keys others := by
      rw [hm.keys_eq]
      exact (hp.map Prod.fst).mem_iff
    rw [Bool.eq_iff_iff, hasNames_iff, hasNames_iff]
    simp [hkeys]

end Values

section Items

variable {items others : List Json} (h : ReorderedItems loose items others)
include h

theorem ReorderedItems.isEmpty_eq : items.isEmpty = others.isEmpty := by
  cases h with
  | nil => rfl
  | cons _ _ => rfl

theorem ReorderedItems.all_hasNames_eq (names : List String) :
    items.all (hasNames names) = others.all (hasNames names) := by
  induction items generalizing others with
  | nil =>
    cases h
    rfl
  | cons v rest ih =>
    cases h with
    | cons hv h => rw [List.all_cons, List.all_cons, hv.hasNames_eq, ih h]

/-- Arrays are homogeneous whatever the order of their objects' members. -/
theorem ReorderedItems.homogeneous_eq : homogeneous items = homogeneous others := by
  have hempty : items ≠ [] ↔ others ≠ [] := by
    simp only [ne_eq, ← List.isEmpty_iff, h.isEmpty_eq]
  rw [Bool.eq_iff_iff, homogeneous_iff, homogeneous_iff, hempty]
  simp only [← List.all_eq_true, h.all_hasNames_eq]

theorem ReorderedItems.placed (i : Nat) :
    ReorderedMembers loose (placed i items) (placed i others) := by
  induction items generalizing others i with
  | nil =>
    cases h
    exact .nil
  | cons v rest ih =>
    cases h with
    | cons hv h => exact .cons (toString i) hv (ih h (i + 1))

end Items

theorem ReorderedMembers.filter_isContainer {members others : List (String × Json)}
    (h : ReorderedMembers loose members others) :
    ReorderedMembers loose (members.filter fun p => p.2.isContainer)
      (others.filter fun p => p.2.isContainer) := by
  induction members generalizing others with
  | nil =>
    cases h
    exact .nil
  | cons p members ih =>
    cases h with
    | @cons v w _ others k hv h =>
      simp only [List.filter_cons, ← hv.isContainer_eq]
      split
      · exact .cons k hv (ih h)
      · exact ih h
    | shuffle hk hp h => exact .shuffle hk hp (ih h)

def ReorderedParts (loose : List String) (parts others : List (String × Json)) : Prop :=
  ∃ aligned, ReorderedMembers loose parts aligned ∧ aligned.Perm others

theorem ReorderedMembers.toParts {members others : List (String × Json)}
    (h : ReorderedMembers loose members others) : ReorderedParts loose members others :=
  ⟨others, h, List.Perm.refl others⟩

theorem ReorderedItems.itemParts {items others : List Json}
    (h : ReorderedItems loose items others) :
    ReorderedParts loose (itemParts items) (itemParts others) := by
  have hh := h.homogeneous_eq
  have hplaced := h.placed 0
  cases h with
  | nil => exact hplaced.toParts
  | @cons v w rest others hv h =>
    cases hv with
    | scalar hs =>
      have ho : v.isObject = false := by cases v <;> first | rfl | cases hs
      rw [itemParts_of_not_object ho, itemParts_of_not_object ho]
      exact hplaced.toParts
    | array _ => exact hplaced.toParts
    | @object members aligned _ hm hp =>
      cases hc : homogeneous (.object members :: rest) with
      | true =>
        rw [Json.itemParts, if_pos hc, Json.itemParts, if_pos (hh ▸ hc)]
        exact ⟨aligned, hm, hp⟩
      | false =>
        rw [itemParts_of_object hc, itemParts_of_object (hh ▸ hc)]
        exact hplaced.filter_isContainer.toParts

/-- Values that differ in the order of members have corresponding parts. -/
theorem Reordered.parts {v w : Json} (h : Reordered loose v w) :
    ReorderedParts loose v.parts w.parts := by
  cases h with
  | scalar _ => exact (ReorderedMembers.refl v.parts).toParts
  | array h => exact h.itemParts
  | @object members aligned others hm hp => exact ⟨aligned, hm, hp⟩

section Members

variable {members others : List (String × Json)} (h : ReorderedMembers [] members others)
include h

theorem ReorderedMembers.counterpart {p : String × Json} (hp : p ∈ members) :
    ∃ w, (p.1, w) ∈ others ∧ Reordered [] p.2 w := by
  induction members generalizing others with
  | nil => simp at hp
  | cons q members ih =>
    cases h with
    | shuffle hk _ _ => simp at hk
    | @cons v w _ others k hv h =>
      cases hp with
      | head => exact ⟨w, List.mem_cons_self, hv⟩
      | tail _ hp =>
        obtain ⟨x, hx, hr⟩ := ih h hp
        exact ⟨x, List.mem_cons_of_mem _ hx, hr⟩

/-- A test of values that order does not matter to selects the same names. -/
theorem ReorderedMembers.names_filter_eq {f : Json → Bool}
    (hf : ∀ v w, Reordered [] v w → f v = f w) :
    Members.keys (members.filter fun p => f p.2) =
      Members.keys (others.filter fun p => f p.2) := by
  induction members generalizing others with
  | nil =>
    cases h
    rfl
  | cons p members ih =>
    cases h with
    | shuffle hk _ _ => simp at hk
    | @cons v w _ others k hv h =>
      simp only [List.filter_cons, hf v w hv]
      split
      · exact congrArg (k :: ·) (ih h)
      · exact ih h

theorem ReorderedMembers.map {f : Json → Json}
    (hf : ∀ p ∈ members, ∀ w, Reordered [] p.2 w → Reordered loose (f p.2) (f w)) :
    ReorderedMembers loose (members.map fun p => (p.1, f p.2))
      (others.map fun p => (p.1, f p.2)) := by
  induction members generalizing others with
  | nil =>
    cases h
    exact .nil
  | cons p members ih =>
    obtain ⟨hfirst, hrest⟩ := List.forall_mem_cons.mp hf
    cases h with
    | shuffle hk _ _ => simp at hk
    | @cons v w _ others k hv h => exact .cons k (hfirst w hv) (ih h hrest)

end Members

section Parts

variable {parts others : List (String × Json)} (h : ReorderedParts [] parts others)
include h

theorem ReorderedParts.counterpart {p : String × Json} (hp : p ∈ parts) :
    ∃ w, (p.1, w) ∈ others ∧ Reordered [] p.2 w := by
  obtain ⟨aligned, hm, hperm⟩ := h
  obtain ⟨w, hw, hr⟩ := hm.counterpart hp
  exact ⟨w, hperm.mem_iff.mp hw, hr⟩

theorem ReorderedParts.length_eq : parts.length = others.length := by
  obtain ⟨aligned, hm, hperm⟩ := h
  have hlen : parts.length = aligned.length := by
    simpa [Members.keys] using congrArg List.length hm.keys_eq
  rw [hlen, hperm.length_eq]

theorem ReorderedParts.names_filter_perm {f : Json → Bool}
    (hf : ∀ v w, Reordered [] v w → f v = f w) :
    (Members.keys (parts.filter fun p => f p.2)).Perm
      (Members.keys (others.filter fun p => f p.2)) := by
  obtain ⟨aligned, hm, hperm⟩ := h
  rw [hm.names_filter_eq hf]
  exact (hperm.filter _).map _

theorem ReorderedParts.map {f : Json → Json}
    (hf : ∀ p ∈ parts, ∀ w, Reordered [] p.2 w → Reordered loose (f p.2) (f w)) :
    Reordered loose (.object (parts.map fun p => (p.1, f p.2)))
      (.object (others.map fun p => (p.1, f p.2))) := by
  obtain ⟨aligned, hm, hperm⟩ := h
  exact .object (hm.map hf) (hperm.map _)

end Parts

end SchemaByExample.Json
