import SchemaByExample.Json.Basic

/-! The parts by which a container is described: the members of an object, those of one item
for an array of like objects, and the items under their places for every other array. -/
namespace SchemaByExample.Json

def hasNames (names : List String) : Json → Bool
  | .object members =>
    names.all (fun k => (Members.keys members).contains k) &&
      (Members.keys members).all (fun k => names.contains k)
  | _ => false

/-- Whether there are items, and all are objects with one set of names. -/
def homogeneous : List Json → Bool
  | .object first :: rest => rest.all (hasNames (Members.keys first))
  | _ => false

def placed (i : Nat) : List Json → List (String × Json)
  | [] => []
  | v :: rest => (toString i, v) :: placed (i + 1) rest

def isObject : Json → Bool
  | .object _ => true
  | _ => false

theorem exists_of_isObject {v : Json} (h : v.isObject = true) : ∃ members, v = .object members := by
  cases v with
  | object members => exact ⟨members, rfl⟩
  | _ => cases h

/-- The parts of an array. Where it begins with an object and is not homogeneous, its
scalars are left out. -/
def itemParts (items : List Json) : List (String × Json) :=
  match items with
  | .object first :: _ =>
    if homogeneous items then first else (placed 0 items).filter fun p => p.2.isContainer
  | _ => placed 0 items

def parts : Json → List (String × Json)
  | .object members => members
  | .array items => itemParts items
  | _ => []

theorem hasNames_iff {names : List String} {v : Json} : hasNames names v = true ↔
    ∃ members, v = .object members ∧ ∀ k, k ∈ Members.keys members ↔ k ∈ names := by
  cases v with
  | object members =>
    simp only [hasNames, Bool.and_eq_true, List.all_eq_true, List.contains_iff_mem, object.injEq,
      exists_eq_left']
    constructor
    · intro h k
      exact ⟨h.2 k, h.1 k⟩
    · intro h
      exact ⟨fun k => (h k).mpr, fun k => (h k).mp⟩
  | _ => simp [hasNames]

/-- There are items, and one set of names that each of them has. -/
theorem homogeneous_iff {items : List Json} :
    homogeneous items = true ↔ items ≠ [] ∧ ∃ names, ∀ v ∈ items, hasNames names v = true := by
  cases items with
  | nil => simp [homogeneous]
  | cons v rest =>
    constructor
    · intro h
      cases v with
      | object first =>
        refine ⟨by simp, Members.keys first, ?_⟩
        intro w hw
        cases hw with
        | head => exact hasNames_iff.mpr ⟨first, rfl, fun _ => Iff.rfl⟩
        | tail _ hw => exact List.all_eq_true.mp h w hw
      | _ => simp [homogeneous] at h
    · rintro ⟨-, names, h⟩
      obtain ⟨first, rfl, hfirst⟩ := hasNames_iff.mp (h v (by simp))
      refine List.all_eq_true.mpr fun w hw => ?_
      obtain ⟨members, rfl, hmembers⟩ := hasNames_iff.mp (h w (List.mem_cons_of_mem _ hw))
      exact hasNames_iff.mpr ⟨members, rfl, fun k => (hmembers k).trans (hfirst k).symm⟩

theorem mem_placed {p : String × Json} {i : Nat} {items : List Json} (h : p ∈ placed i items) :
    p.2 ∈ items := by
  induction items generalizing i with
  | nil => simp [placed] at h
  | cons v rest ih =>
    cases h with
    | head => simp
    | tail _ h => exact List.mem_cons_of_mem v (ih h)

/-- The parts of an array are items of it, or members of its first item. -/
theorem mem_itemParts {p : String × Json} {items : List Json} (h : p ∈ itemParts items) :
    p.2 ∈ items ∨ ∃ first rest, items = .object first :: rest ∧ p ∈ first := by
  unfold itemParts at h
  split at h
  · rename_i first rest
    split at h
    · exact .inr ⟨first, rest, rfl, h⟩
    · exact .inl (mem_placed (List.mem_filter.mp h).1)
  · exact .inl (mem_placed h)

theorem itemParts_of_not_object {v : Json} (h : v.isObject = false) (rest : List Json) :
    itemParts (v :: rest) = placed 0 (v :: rest) := by
  cases v with
  | object first => simp [isObject] at h
  | _ => rfl

theorem homogeneous_of_not_object {v : Json} (h : v.isObject = false) (rest : List Json) :
    homogeneous (v :: rest) = false := by
  cases v with
  | object first => simp [isObject] at h
  | _ => rfl

theorem itemParts_of_object {first : List (String × Json)} {rest : List Json}
    (h : homogeneous (.object first :: rest) = false) :
    itemParts (.object first :: rest) =
      (placed 0 (.object first :: rest)).filter fun p => p.2.isContainer := by
  simp [itemParts, h]

/-- An array that is not homogeneous leaves its first item among its parts. -/
theorem isEmpty_itemParts {items : List Json} (h : homogeneous items = false) :
    (itemParts items).isEmpty = items.isEmpty := by
  cases items with
  | nil => rfl
  | cons v rest => cases v <;> simp [itemParts, h, placed, isContainer]

theorem sizeOf_lt_of_mem {p : String × Json} {members : List (String × Json)} (h : p ∈ members) :
    sizeOf p.2 < sizeOf (object members) := by
  have hp : sizeOf p < sizeOf members := List.sizeOf_lt_of_mem h
  have hv : sizeOf p.2 < sizeOf p := by
    cases p
    simp only [Prod.mk.sizeOf_spec]
    omega
  rw [object.sizeOf_spec]
  omega

theorem sizeOf_lt_of_mem_parts {p : String × Json} {v : Json} (h : p ∈ parts v) :
    sizeOf p.2 < sizeOf v := by
  cases v with
  | object members => exact sizeOf_lt_of_mem h
  | array items =>
    have hitem {w : Json} (hw : w ∈ items) : sizeOf w < sizeOf (array items) := by
      have := List.sizeOf_lt_of_mem hw
      rw [array.sizeOf_spec]
      omega
    obtain hp | ⟨first, rest, rfl, hp⟩ := mem_itemParts h
    · exact hitem hp
    · exact Nat.lt_trans (sizeOf_lt_of_mem hp) (hitem (by simp))
  | _ => simp [parts] at h

/-- What passes from the parts of every value to the value holds of all values. -/
theorem parts_induction {motive : Json → Prop}
    (step : ∀ v, (∀ p ∈ parts v, motive p.2) → motive v) (v : Json) : motive v :=
  step v fun p _ => parts_induction step p.2
termination_by sizeOf v
decreasing_by exact sizeOf_lt_of_mem_parts ‹_›

mutual

def decideDistinct : (v : Json) → Decidable v.Distinct
  | .array items => decideDistinctItems items
  | .object members =>
    have := decideDistinctMembers members
    inferInstanceAs (Decidable ((Members.keys members).Nodup ∧ DistinctMembers members))
  | .null | .bool _ | .number _ | .string _ => .isTrue trivial

def decideDistinctItems : (items : List Json) → Decidable (DistinctItems items)
  | [] => .isTrue trivial
  | v :: rest =>
    have := decideDistinct v
    have := decideDistinctItems rest
    inferInstanceAs (Decidable (v.Distinct ∧ DistinctItems rest))

def decideDistinctMembers :
    (members : List (String × Json)) → Decidable (DistinctMembers members)
  | [] => .isTrue trivial
  | (_, v) :: rest =>
    have := decideDistinct v
    have := decideDistinctMembers rest
    inferInstanceAs (Decidable (v.Distinct ∧ DistinctMembers rest))

end

instance : DecidablePred Distinct := decideDistinct

theorem distinctItems_iff {items : List Json} :
    DistinctItems items ↔ ∀ v ∈ items, v.Distinct := by
  induction items with
  | nil => simp [DistinctItems]
  | cons v rest ih => simp [DistinctItems, ih]

theorem distinctMembers_iff {members : List (String × Json)} :
    DistinctMembers members ↔ ∀ p ∈ members, p.2.Distinct := by
  induction members with
  | nil => simp [DistinctMembers]
  | cons p rest ih => simp [DistinctMembers, ih]

theorem Distinct.keys {members : List (String × Json)} (h : (object members).Distinct) :
    (Members.keys members).Nodup := h.1

theorem Distinct.member {members : List (String × Json)} (h : (object members).Distinct)
    {p : String × Json} (hp : p ∈ members) : p.2.Distinct := distinctMembers_iff.mp h.2 p hp

theorem Distinct.item {items : List Json} (h : (array items).Distinct) {v : Json}
    (hv : v ∈ items) : v.Distinct := distinctItems_iff.mp h v hv

theorem depthItems_le_iff {items : List Json} {n : Nat} :
    depthItems items ≤ n ↔ ∀ v ∈ items, v.depth ≤ n := by
  induction items with
  | nil => simp [depthItems]
  | cons v rest ih => rw [depthItems, Nat.max_le, ih, List.forall_mem_cons]

theorem depthMembers_le_iff {members : List (String × Json)} {n : Nat} :
    depthMembers members ≤ n ↔ ∀ p ∈ members, p.2.depth ≤ n := by
  induction members with
  | nil => simp [depthMembers]
  | cons p rest ih => rw [depthMembers, Nat.max_le, ih, List.forall_mem_cons]

theorem depth_array_le_succ {items : List Json} {n : Nat} :
    (array items).depth ≤ n + 1 ↔ ∀ v ∈ items, v.depth ≤ n := by
  rw [depth, Nat.add_le_add_iff_right, depthItems_le_iff]

theorem depth_object_le_succ {members : List (String × Json)} {n : Nat} :
    (object members).depth ≤ n + 1 ↔ ∀ p ∈ members, p.2.depth ≤ n := by
  rw [depth, Nat.add_le_add_iff_right, depthMembers_le_iff]

theorem toString_inj {m n : Nat} (h : toString m = toString n) : m = n := by
  have hd : Nat.toDigits 10 m = Nat.toDigits 10 n := by
    simpa using congrArg String.toList h
  rw [← Nat.ofDigitChars_ten_toDigits (n := m), hd, Nat.ofDigitChars_ten_toDigits]

theorem keys_placed (i : Nat) (items : List Json) :
    Members.keys (placed i items) = (List.range' i items.length).map toString := by
  induction items generalizing i with
  | nil => rfl
  | cons v rest ih => simp [placed, ih, List.range'_succ]

theorem nodup_keys_placed (i : Nat) (items : List Json) :
    (Members.keys (placed i items)).Nodup := by
  rw [keys_placed]
  exact List.Pairwise.map toString (fun _ _ hne h => hne (toString_inj h)) (List.nodup_range' 1)

theorem Distinct.itemParts {items : List Json} (h : (array items).Distinct) :
    (Members.keys (itemParts items)).Nodup := by
  have hplaced := nodup_keys_placed 0 items
  unfold Json.itemParts
  split
  · rename_i first rest
    split
    · exact (h.item (by simp)).keys
    · exact hplaced.sublist (List.filter_sublist.map _)
  · exact hplaced

theorem mem_placed_of_getElem? {items : List Json} {n : Nat} {v : Json} (h : items[n]? = some v)
    (i : Nat) : (toString (i + n), v) ∈ placed i items := by
  induction items generalizing i n with
  | nil => simp at h
  | cons w rest ih =>
    cases n with
    | zero =>
      obtain rfl : w = v := by simpa using h
      exact List.mem_cons_self
    | succ n =>
      have hrest := ih (n := n) (by simpa using h) (i + 1)
      have hplace : i + 1 + n = i + (n + 1) := by omega
      rw [hplace] at hrest
      exact List.mem_cons_of_mem _ hrest

/-- A container in an array that keeps its items apart is the part under its place. -/
theorem find?_itemParts {items : List Json} (hd : (Json.array items).Distinct)
    (hh : homogeneous items = false) {i : Nat} {v : Json} (hi : items[i]? = some v)
    (hv : v.isContainer = true) : Members.find? (toString i) (itemParts items) = some v := by
  refine Members.find?_of_mem hd.itemParts ?_
  have hplaced := mem_placed_of_getElem? hi 0
  rw [Nat.zero_add] at hplaced
  cases items with
  | nil => simp at hi
  | cons first rest =>
    cases ho : first.isObject with
    | false =>
      rw [itemParts_of_not_object ho]
      exact hplaced
    | true =>
      obtain ⟨members, rfl⟩ := exists_of_isObject ho
      rw [itemParts_of_object hh]
      exact List.mem_filter.mpr ⟨hplaced, hv⟩

theorem Distinct.keys_parts {v : Json} (h : v.Distinct) : (Members.keys (parts v)).Nodup := by
  cases v with
  | object members => exact h.keys
  | array items => exact h.itemParts
  | _ => simp [parts, Members.keys]

theorem Distinct.part {v : Json} (h : v.Distinct) {p : String × Json} (hp : p ∈ parts v) :
    p.2.Distinct := by
  cases v with
  | object members => exact h.member hp
  | array items =>
    obtain hv | ⟨first, rest, rfl, hv⟩ := mem_itemParts hp
    · exact h.item hv
    · exact (h.item (by simp)).member hv
  | _ => simp [parts] at hp

end SchemaByExample.Json
