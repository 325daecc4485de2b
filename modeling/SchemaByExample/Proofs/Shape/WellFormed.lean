import SchemaByExample.Proofs.Shape.Children

/-! Well-formed trees. What marks a node carries is told by its kind, by its children and by
where it stands: at the root, under a name, or under the place of an item. The tree of every
document is well formed. -/
namespace SchemaByExample.Shape

open Json

/-- Where a node stands. Under an object, and under an array whose like objects are collapsed,
the children are members; under every other array they are elements. -/
inductive Role where
  | root | member | element
  deriving DecidableEq

namespace Role

def within (apart : Bool) : Role := if apart then .element else .member

def node : Role → Json → Shape
  | .root => ofDocument
  | .member => ofPart false
  | .element => ofPart true

end Role

structure IsPrimitive (s : Shape) : Prop where
  kind : Schema.isContainerKind s.kind = false
  children : s.children = []
  required : s.required = s.kind.isSome
  minLength : if s.kind = some .string then s.minLength = some 0 ∨ s.minLength = some 1
    else s.minLength = none
  uniqueItems : s.uniqueItems = none
  minItems : s.minItems = none

structure IsObject (role : Role) (s : Shape) : Prop where
  kind : s.kind = some .object
  names : (Members.keys s.children).Nodup
  required : s.required = (role = .element && !s.children.isEmpty)
  minLength : s.minLength = none
  uniqueItems : s.uniqueItems = none
  minItems : s.minItems = none

structure IsCollapsed (role : Role) (s : Shape) : Prop where
  kind : s.kind = some .array
  names : (Members.keys s.children).Nodup
  required : s.required = decide (role = .element)
  minLength : s.minLength = none
  uniqueItems : s.uniqueItems = some true
  minItems : s.minItems = some 1

/-- Children under decimal places in rising order. Either no place is left out and the first
child is no object, or the first is an object and all are containers. -/
structure Placed (children : List (String × Shape)) : Prop where
  rising : ∃ places : List Nat,
    Members.keys children = places.map toString ∧ places.Pairwise (· < ·)
  filled :
    (Members.keys children = (List.range children.length).map toString ∧
      ∀ s, Members.find? "0" children = some s → s.kind ≠ some .object) ∨
    ((∃ s, Members.find? "0" children = some s ∧ s.kind = some .object) ∧
      ∀ c ∈ children, Schema.isContainerKind c.2.kind = true)

structure IsApart (role : Role) (s : Shape) : Prop where
  kind : s.kind = some .array
  places : Placed s.children
  required : s.required = (role = .element && !s.children.isEmpty)
  minLength : s.minLength = none
  uniqueItems : s.uniqueItems = if role = .element then some true else none
  minItems : s.minItems = none

inductive WellFormed : Role → Shape → Prop
  | primitive {role : Role} {s : Shape} : IsPrimitive s → role ≠ .root → WellFormed role s
  | object {role : Role} {s : Shape} : IsObject role s →
      (∀ c ∈ s.children, WellFormed .member c.2) → WellFormed role s
  | collapsed {role : Role} {s : Shape} : IsCollapsed role s →
      (∀ c ∈ s.children, WellFormed .member c.2) → WellFormed role s
  | apart {role : Role} {s : Shape} : IsApart role s →
      (∀ c ∈ s.children, WellFormed .element c.2) → WellFormed role s

/-! The form of a well-formed node is told by its kind, and for an array by its least number of
items. -/

namespace WellFormed

variable {role : Role} {s : Shape} (h : WellFormed role s)
include h

theorem isPrimitive (hk : Schema.isContainerKind s.kind = false) : IsPrimitive s := by
  cases h with
  | primitive h _ => exact h
  | object h _ => simp [h.kind, Schema.isContainerKind] at hk
  | collapsed h _ => simp [h.kind, Schema.isContainerKind] at hk
  | apart h _ => simp [h.kind, Schema.isContainerKind] at hk

theorem isObject (hk : s.kind = some .object) :
    IsObject role s ∧ ∀ c ∈ s.children, WellFormed .member c.2 := by
  cases h with
  | primitive h _ => simpa [hk, Schema.isContainerKind] using h.kind
  | object h hc => exact ⟨h, hc⟩
  | collapsed h _ => simp [h.kind] at hk
  | apart h _ => simp [h.kind] at hk

variable (hk : s.kind = some .array)
include hk

theorem isCollapsed (hm : s.minItems = some 1) :
    IsCollapsed role s ∧ ∀ c ∈ s.children, WellFormed .member c.2 := by
  cases h with
  | primitive h _ => simpa [hk, Schema.isContainerKind] using h.kind
  | object h _ => simp [h.kind] at hk
  | collapsed h hc => exact ⟨h, hc⟩
  | apart h _ => simp [h.minItems] at hm

theorem isApart (hm : s.minItems = none) :
    IsApart role s ∧ ∀ c ∈ s.children, WellFormed .element c.2 := by
  cases h with
  | primitive h _ => simpa [hk, Schema.isContainerKind] using h.kind
  | object h _ => simp [h.kind] at hk
  | collapsed h _ => simp [h.minItems] at hm
  | apart h hc => exact ⟨h, hc⟩

end WellFormed

theorem Placed.names {children : List (String × Shape)} (h : Placed children) :
    (Members.keys children).Nodup := by
  obtain ⟨places, hk, hr⟩ := h.rising
  rw [hk]
  exact List.Pairwise.map toString (fun m n hlt he => Nat.ne_of_lt hlt (toString_inj he)) hr

/-! A well-formed node is told by its form, its role and its children, and a primitive's by its
kind and its length. -/

attribute [ext] Shape

theorem IsPrimitive.eq {s t : Shape} (hs : IsPrimitive s) (ht : IsPrimitive t)
    (hk : s.kind = t.kind) (hl : s.minLength = t.minLength) : s = t := by
  have hr : s.required = t.required := by rw [hs.required, ht.required, hk]
  exact Shape.ext hk (hs.children.trans ht.children.symm) hr hl
    (hs.uniqueItems.trans ht.uniqueItems.symm) (hs.minItems.trans ht.minItems.symm)

section Determined

variable {role : Role} {s t : Shape}

theorem IsObject.eq (hs : IsObject role s) (ht : IsObject role t)
    (hc : s.children = t.children) : s = t := by
  have hr : s.required = t.required := by rw [hs.required, ht.required, hc]
  exact Shape.ext (hs.kind.trans ht.kind.symm) hc hr (hs.minLength.trans ht.minLength.symm)
    (hs.uniqueItems.trans ht.uniqueItems.symm) (hs.minItems.trans ht.minItems.symm)

theorem IsCollapsed.eq (hs : IsCollapsed role s) (ht : IsCollapsed role t)
    (hc : s.children = t.children) : s = t :=
  Shape.ext (hs.kind.trans ht.kind.symm) hc (hs.required.trans ht.required.symm)
    (hs.minLength.trans ht.minLength.symm) (hs.uniqueItems.trans ht.uniqueItems.symm)
    (hs.minItems.trans ht.minItems.symm)

theorem IsApart.eq (hs : IsApart role s) (ht : IsApart role t)
    (hc : s.children = t.children) : s = t := by
  have hr : s.required = t.required := by rw [hs.required, ht.required, hc]
  exact Shape.ext (hs.kind.trans ht.kind.symm) hc hr (hs.minLength.trans ht.minLength.symm)
    (hs.uniqueItems.trans ht.uniqueItems.symm) (hs.minItems.trans ht.minItems.symm)

end Determined

/-! The nodes of values. -/

theorem node_within (apart : Bool) : (Role.within apart).node = ofPart apart := by
  cases apart <;> rfl

theorem node_object (role : Role) (members : List (String × Json)) :
    role.node (.object members) =
      { kind := some .object
        children := childrenOf false members
        required := role = .element && !members.isEmpty } := by
  cases role with
  | root => exact ofPart_object false members
  | member => exact ofPart_object false members
  | element => exact ofPart_object true members

theorem node_array (role : Role) {items : List Json} (hd : (Json.array items).Distinct) :
    role.node (.array items) =
      { kind := some .array
        children := childrenOf (!homogeneous items) (itemParts items)
        required := role = .element && !items.isEmpty
        uniqueItems := if homogeneous items || role = .element then some true else none
        minItems := if homogeneous items then some 1 else none } := by
  cases role with
  | root => exact ofPart_array false hd
  | member => exact ofPart_array false hd
  | element => exact ofPart_array true hd

theorem node_scalar {role : Role} (hr : role ≠ .root) {v : Json} (h : v.isContainer = false) :
    role.node v = ofPrimitive v := by
  cases role with
  | root => exact absurd rfl hr
  | member => exact ofPart_scalar false h
  | element => exact ofPart_scalar true h

theorem node_root_scalar {v : Json} (h : v.isContainer = false) :
    Role.root.node v = ofKind .object := by
  simp [Role.node, ofDocument, h]

theorem keys_childrenOf (apart : Bool) (parts : List (String × Json)) :
    Members.keys (childrenOf apart parts) = Members.keys parts := by
  simp [Members.keys, childrenOf, Function.comp_def]

theorem isPrimitive_ofPrimitive {v : Json} (h : v.isContainer = false) :
    IsPrimitive (ofPrimitive v) := by
  have hkind : Schema.isContainerKind v.kind? = false := by rw [isContainerKind_kind?, h]
  by_cases hk : v.kind? = some .string
  · obtain ⟨s, rfl⟩ := text_of_kind hk
    rw [ofPrimitive_of_kind_eq hk]
    refine ⟨rfl, rfl, rfl, ?_, rfl, rfl⟩
    cases s.isEmpty <;> simp
  · rw [ofPrimitive_of_kind_ne hk]
    refine ⟨hkind, rfl, ?_, by simp [hk], rfl, rfl⟩
    simp [isNull_eq_isNone]

/-! The places of items that are kept apart. -/

theorem rising_of_sublist {parts : List (String × Json)} {items : List Json}
    (h : parts.Sublist (placed 0 items)) : ∃ places : List Nat,
      Members.keys parts = places.map toString ∧ places.Pairwise (· < ·) := by
  have hkeys : (Members.keys parts).Sublist (Members.keys (placed 0 items)) := h.map Prod.fst
  rw [keys_placed] at hkeys
  obtain ⟨places, hsub, hmap⟩ := List.sublist_map_iff.mp hkeys
  exact ⟨places, hmap, (List.pairwise_lt_range' 1).sublist hsub⟩

theorem find?_first (apart : Bool) (v : Json) (rest : List (String × Json)) :
    Members.find? "0" (childrenOf apart ((toString 0, v) :: rest)) = some (ofPart apart v) := by
  have h : toString 0 = "0" := rfl
  simp [childrenOf, Members.find?, h]

/-- Items of which the first is no object keep all their places. -/
theorem placed_of_not_object {v : Json} {rest : List Json}
    (hd : (Json.array (v :: rest)).Distinct) (h : v.isObject = false) :
    Placed (childrenOf true (itemParts (v :: rest))) := by
  rw [itemParts_of_not_object h]
  have hlen : (placed 0 (v :: rest)).length = (v :: rest).length := by
    simpa [Members.keys] using congrArg List.length (keys_placed 0 (v :: rest))
  have hkeys : Members.keys (childrenOf true (placed 0 (v :: rest))) =
      (List.range (childrenOf true (placed 0 (v :: rest))).length).map toString := by
    rw [keys_childrenOf, keys_placed, childrenOf, List.length_map, hlen, List.range_eq_range']
  have hfirst : ∀ s, Members.find? "0" (childrenOf true (placed 0 (v :: rest))) = some s →
      s.kind ≠ some .object := by
    intro s hs hk
    rw [placed, find?_first, Option.some.injEq] at hs
    rw [← hs, kind_ofPart true (hd.item (by simp))] at hk
    obtain ⟨members, rfl⟩ := object_of_kind hk
    simp [isObject] at h
  refine ⟨?_, .inl ⟨hkeys, hfirst⟩⟩
  rw [keys_childrenOf]
  exact rising_of_sublist (List.Sublist.refl _)

/-- Unlike items of which the first is an object keep the places of containers. -/
theorem placed_of_object {first : List (String × Json)} {rest : List Json}
    (hd : (Json.array (.object first :: rest)).Distinct)
    (h : homogeneous (.object first :: rest) = false) :
    Placed (childrenOf true (itemParts (.object first :: rest))) := by
  rw [itemParts_of_object h]
  refine ⟨?_, .inr ⟨⟨ofPart true (.object first), ?_, ?_⟩, ?_⟩⟩
  · rw [keys_childrenOf]
    exact rising_of_sublist List.filter_sublist
  · rw [placed, List.filter_cons_of_pos (by rfl), find?_first]
  · exact kind_ofPart true (hd.item (by simp))
  · intro c hc
    obtain ⟨p, hp, rfl⟩ := List.mem_map.mp hc
    obtain ⟨hplaced, hcontainer⟩ := List.mem_filter.mp hp
    rw [kind_ofPart true (hd.item (mem_placed hplaced)), isContainerKind_kind?]
    exact hcontainer

/-- The items of an array that is not homogeneous give children under rising places. -/
theorem placed_itemParts {items : List Json} (hd : (Json.array items).Distinct)
    (h : homogeneous items = false) : Placed (childrenOf true (itemParts items)) := by
  cases items with
  | nil =>
    exact ⟨⟨[], rfl, .nil⟩, .inl ⟨rfl, by simp [childrenOf, itemParts, placed, Members.find?]⟩⟩
  | cons v rest =>
    cases v with
    | object first => exact placed_of_object hd h
    | _ => exact placed_of_not_object hd rfl

theorem isEmpty_childrenOf (apart : Bool) (parts : List (String × Json)) :
    (childrenOf apart parts).isEmpty = parts.isEmpty := by
  cases parts <;> rfl

theorem isObject_node (role : Role) {members : List (String × Json)}
    (hk : (Members.keys members).Nodup) : IsObject role (role.node (.object members)) := by
  rw [node_object]
  refine ⟨rfl, ?_, ?_, rfl, rfl, rfl⟩
  · rw [keys_childrenOf]
    exact hk
  · rw [isEmpty_childrenOf]

section Array

variable (role : Role) {items : List Json} (hd : (Json.array items).Distinct)
include hd

theorem children_node_array :
    (role.node (.array items)).children = childrenOf (!homogeneous items) (itemParts items) := by
  rw [node_array role hd]

theorem isCollapsed_node (h : homogeneous items = true) :
    IsCollapsed role (role.node (.array items)) := by
  have hitems : items.isEmpty = false := by
    cases items with
    | nil => simp [homogeneous] at h
    | cons v rest => rfl
  rw [node_array role hd, h]
  refine ⟨rfl, ?_, by simp [hitems], rfl, rfl, rfl⟩
  rw [keys_childrenOf]
  exact hd.itemParts

theorem isApart_node (h : homogeneous items = false) :
    IsApart role (role.node (.array items)) := by
  rw [node_array role hd, h]
  refine ⟨rfl, placed_itemParts hd h, ?_, rfl, by simp, rfl⟩
  rw [Bool.not_false, isEmpty_childrenOf, isEmpty_itemParts h]

end Array

/-- Every value has a well-formed node in every role. -/
theorem wellFormed_node {v : Json} (hd : v.Distinct) (role : Role) :
    WellFormed role (role.node v) := by
  induction v using parts_induction generalizing role with
  | step v ih =>
    have hchildren (apart : Bool) :
        ∀ c ∈ childrenOf apart v.parts, WellFormed (.within apart) c.2 := by
      intro c hc
      obtain ⟨p, hp, rfl⟩ := List.mem_map.mp hc
      have h := ih p hp (hd.part hp) (.within apart)
      rwa [node_within] at h
    have hscalar : v.isContainer = false → WellFormed role (role.node v) := by
      intro hv
      by_cases hr : role = .root
      · subst hr
        rw [node_root_scalar hv]
        exact .object ⟨rfl, .nil, rfl, rfl, rfl, rfl⟩ (by simp [ofKind])
      · rw [node_scalar hr hv]
        exact .primitive (isPrimitive_ofPrimitive hv) hr
    cases v with
    | object members =>
      refine .object (isObject_node role hd.keys) ?_
      rw [node_object]
      exact hchildren false
    | array items =>
      have hc : ∀ c ∈ (role.node (.array items)).children,
          WellFormed (.within (!homogeneous items)) c.2 := by
        rw [children_node_array role hd]
        exact hchildren _
      cases hh : homogeneous items with
      | true =>
        rw [hh] at hc
        exact .collapsed (isCollapsed_node role hd hh) hc
      | false =>
        rw [hh] at hc
        exact .apart (isApart_node role hd hh) hc
    | _ => exact hscalar rfl

end SchemaByExample.Shape
