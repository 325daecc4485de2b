import SchemaByExample.Proofs.Shape.WellFormed

/-! The trees of documents. For every well-formed tree a document is written down that has
this tree: one object under a collapsed array, and for an array whose items are kept apart the
items at their places, with null where a place is left out. -/
namespace SchemaByExample.Shape

open Json

/-- The given values at their places, counted from `i`, and null at every other place and
behind the last. -/
def spread (i : Nat) : List (Nat × Json) → List Json
  | [] => [.null]
  | (n, v) :: rest => List.replicate (n - i) .null ++ v :: spread (n + 1) rest

theorem placed_append (i : Nat) (items others : List Json) :
    placed i (items ++ others) = placed i items ++ placed (i + items.length) others := by
  induction items generalizing i with
  | nil => rfl
  | cons v rest ih =>
    have hlen : i + (v :: rest).length = i + 1 + rest.length := by
      rw [List.length_cons]
      omega
    rw [List.cons_append, placed, ih, placed, hlen, List.cons_append]

theorem filter_placed_replicate (i n : Nat) :
    (placed i (List.replicate n .null)).filter (fun p => p.2.isContainer) = [] := by
  rw [List.filter_eq_nil_iff]
  intro p hp
  have hv := List.eq_of_mem_replicate (mem_placed hp)
  simp [hv, isContainer]

/-- Containers that are spread out are found at their places. -/
theorem filter_placed_spread {i : Nat} {entries : List (Nat × Json)}
    (hi : ∀ e ∈ entries, i ≤ e.1) (hr : entries.Pairwise fun a b => a.1 < b.1)
    (hc : ∀ e ∈ entries, e.2.isContainer = true) :
    (placed i (spread i entries)).filter (fun p => p.2.isContainer) =
      entries.map fun e => (toString e.1, e.2) := by
  induction entries generalizing i with
  | nil => exact filter_placed_replicate i 1
  | cons e rest ih =>
    obtain ⟨n, v⟩ := e
    obtain ⟨hn, -⟩ := List.forall_mem_cons.mp hi
    obtain ⟨hv, hcrest⟩ := List.forall_mem_cons.mp hc
    obtain ⟨hlt, hrest⟩ := List.pairwise_cons.mp hr
    have hplace : i + (n - i) = n := by omega
    have hih := ih (i := n + 1) (fun e he => hlt e he) hrest hcrest
    rw [spread, placed_append, List.filter_append, filter_placed_replicate, List.nil_append,
      List.length_replicate, hplace, placed, List.filter_cons_of_pos (by exact hv), hih,
      List.map_cons]

theorem mem_spread {v : Json} {i : Nat} {entries : List (Nat × Json)}
    (h : v ∈ spread i entries) : v = .null ∨ ∃ e ∈ entries, v = e.2 := by
  induction entries generalizing i with
  | nil => exact .inl (List.mem_singleton.mp h)
  | cons e rest ih =>
    obtain ⟨n, w⟩ := e
    rw [spread, List.mem_append, List.mem_cons] at h
    obtain h | rfl | h := h
    · exact .inl (List.eq_of_mem_replicate h)
    · exact .inr ⟨(n, v), by simp, rfl⟩
    · obtain hnull | ⟨e, he, hv⟩ := ih h
      · exact .inl hnull
      · exact .inr ⟨e, List.mem_cons_of_mem _ he, hv⟩

theorem null_mem_spread (i : Nat) (entries : List (Nat × Json)) :
    .null ∈ spread i entries := by
  induction entries generalizing i with
  | nil => exact List.mem_singleton.mpr rfl
  | cons e rest ih =>
    rw [spread]
    exact List.mem_append_right _ (List.mem_cons_of_mem _ (ih _))

theorem not_homogeneous_of_null {items : List Json} (h : .null ∈ items) :
    homogeneous items = false := by
  rw [Bool.eq_false_iff]
  intro hh
  obtain ⟨-, names, hall⟩ := homogeneous_iff.mp hh
  have hnull := hall .null h
  simp [hasNames] at hnull

/-- Values with the given nodes can be taken together, under the same names. -/
theorem exists_parts (apart : Bool) {children : List (String × Shape)}
    (h : ∀ c ∈ children, ∃ v : Json, v.Distinct ∧ (Role.within apart).node v = c.2) :
    ∃ parts, childrenOf apart parts = children ∧ ∀ p ∈ parts, p.2.Distinct := by
  induction children with
  | nil => exact ⟨[], rfl, by simp⟩
  | cons c rest ih =>
    obtain ⟨⟨v, hd, hv⟩, hrest⟩ := List.forall_mem_cons.mp h
    obtain ⟨parts, hparts, hdistinct⟩ := ih hrest
    rw [node_within] at hv
    refine ⟨(c.1, v) :: parts, ?_, List.forall_mem_cons.mpr ⟨hd, hdistinct⟩⟩
    rw [childrenOf, List.map_cons, hv]
    exact congrArg (c :: ·) hparts

/-- Under distinct names they are the members of an object. -/
theorem exists_members {children : List (String × Shape)}
    (hn : (Members.keys children).Nodup)
    (h : ∀ c ∈ children, ∃ v : Json, v.Distinct ∧ Role.member.node v = c.2) :
    ∃ members, childrenOf false members = children ∧ (Json.object members).Distinct := by
  obtain ⟨members, hm, hd⟩ := exists_parts false h
  have hk : (Members.keys members).Nodup := by
    rw [← keys_childrenOf false, hm]
    exact hn
  exact ⟨members, hm, hk, distinctMembers_iff.mpr hd⟩

theorem placed_values {i : Nat} {parts : List (String × Json)}
    (h : Members.keys parts = (List.range' i parts.length).map toString) :
    placed i (parts.map (·.2)) = parts := by
  induction parts generalizing i with
  | nil => rfl
  | cons p rest ih =>
    obtain ⟨k, v⟩ := p
    simp only [Members.keys_cons, List.length_cons, List.range'_succ, List.map_cons,
      List.cons.injEq] at h
    rw [List.map_cons, placed, ih h.2, ← h.1]

theorem exists_entries {parts : List (String × Json)} {places : List Nat}
    (h : Members.keys parts = places.map toString) :
    ∃ entries : List (Nat × Json),
      entries.map (fun e => (toString e.1, e.2)) = parts ∧ entries.map (·.1) = places := by
  induction parts generalizing places with
  | nil =>
    have hp : places = [] := by simpa [Members.keys] using h.symm
    exact ⟨[], rfl, hp.symm⟩
  | cons p rest ih =>
    cases places with
    | nil => simp at h
    | cons n places =>
      simp only [Members.keys_cons, List.map_cons, List.cons.injEq] at h
      obtain ⟨entries, he, hplaces⟩ := ih h.2
      refine ⟨(n, p.2) :: entries, ?_, ?_⟩
      · rw [List.map_cons, he, ← h.1]
      · rw [List.map_cons, hplaces]

section Kept

variable {parts : List (String × Json)} (hd : ∀ p ∈ parts, p.2.Distinct)
include hd

/-- Where no place is left out and the first part is no object, the parts are the items. -/
theorem exists_items_of_full
    (hk : Members.keys parts = (List.range' 0 parts.length).map toString)
    (hf : ∀ s, Members.find? "0" (childrenOf true parts) = some s → s.kind ≠ some .object) :
    ∃ items, (Json.array items).Distinct ∧ homogeneous items = false ∧
      itemParts items = parts := by
  have hplaced := placed_values hk
  have hdistinct : (Json.array (parts.map (·.2))).Distinct := by
    refine distinctItems_iff.mpr ?_
    rw [List.forall_mem_map]
    exact hd
  refine ⟨parts.map (·.2), hdistinct, ?_⟩
  cases parts with
  | nil => exact ⟨rfl, rfl⟩
  | cons p rest =>
    obtain ⟨k, v⟩ := p
    obtain rfl : k = toString 0 := (List.cons.inj hk).1
    have hv : v.isObject = false := by
      cases v with
      | object members =>
        have hobject := hd (toString 0, .object members) List.mem_cons_self
        exact absurd (kind_ofPart true hobject) (hf _ (find?_first true _ rest))
      | _ => rfl
    constructor
    · exact homogeneous_of_not_object hv _
    · rw [List.map_cons, itemParts_of_not_object hv]
      exact hplaced

/-- Where the first part is an object, the parts are spread out over their places. -/
theorem exists_items_of_gaps {places : List Nat}
    (hk : Members.keys parts = places.map toString) (hr : places.Pairwise (· < ·))
    {s : Shape} (hs : Members.find? "0" (childrenOf true parts) = some s)
    (ho : s.kind = some .object)
    (hc : ∀ c ∈ childrenOf true parts, Schema.isContainerKind c.2.kind = true) :
    ∃ items, (Json.array items).Distinct ∧ homogeneous items = false ∧
      itemParts items = parts := by
  obtain ⟨entries, hentries, hplaces⟩ := exists_entries hk
  have hrising : entries.Pairwise fun a b => a.1 < b.1 := by
    rw [← hplaces] at hr
    exact List.pairwise_map.mp hr
  have hcontainer : ∀ e ∈ entries, e.2.isContainer = true := by
    intro e he
    have hp : (toString e.1, e.2) ∈ parts := hentries ▸ List.mem_map.mpr ⟨e, he, rfl⟩
    have h := hc _ (List.mem_map.mpr ⟨_, hp, rfl⟩)
    rwa [kind_ofPart true (hd _ hp), isContainerKind_kind?] at h
  -- the object at place zero is the first entry, since places rise
  have hfirst : ∃ first rest, entries = (0, .object first) :: rest := by
    obtain ⟨p, hp, he⟩ := List.mem_map.mp (Members.mem_of_find? hs)
    obtain ⟨hname, rfl⟩ := Prod.mk.inj he
    rw [kind_ofPart true (hd p hp)] at ho
    obtain ⟨members, hmembers⟩ := object_of_kind ho
    rw [← hentries] at hp
    obtain ⟨e, he, rfl⟩ := List.mem_map.mp hp
    have hzero : e.1 = 0 := toString_inj hname
    cases entries with
    | nil => simp at he
    | cons e' rest =>
      obtain rfl | he := List.mem_cons.mp he
      · exact ⟨members, rest, by rw [← hzero, ← hmembers]⟩
      · have hlt := (List.pairwise_cons.mp hrising).1 e he
        omega
  obtain ⟨first, rest, rfl⟩ := hfirst
  have hspread : spread 0 ((0, .object first) :: rest) = .object first :: spread 1 rest := rfl
  have hnull := not_homogeneous_of_null (null_mem_spread 0 ((0, .object first) :: rest))
  refine ⟨spread 0 ((0, .object first) :: rest), ?_, hnull, ?_⟩
  · refine distinctItems_iff.mpr fun v hv => ?_
    obtain rfl | ⟨e, he, rfl⟩ := mem_spread hv
    · trivial
    · exact hd (toString e.1, e.2) (hentries ▸ List.mem_map.mpr ⟨e, he, rfl⟩)
  · rw [hspread] at hnull ⊢
    rw [itemParts_of_object hnull, ← hspread,
      filter_placed_spread (fun _ _ => Nat.zero_le _) hrising hcontainer, hentries]

/-- Parts with well-placed children are the parts of some array that keeps its items apart. -/
theorem exists_items (h : Placed (childrenOf true parts)) :
    ∃ items, (Json.array items).Distinct ∧ homogeneous items = false ∧
      itemParts items = parts := by
  obtain ⟨⟨places, hk, hr⟩, hfilled⟩ := h
  rw [keys_childrenOf] at hk
  obtain ⟨hfull, hf⟩ | ⟨⟨s, hs, ho⟩, hc⟩ := hfilled
  · rw [keys_childrenOf, childrenOf, List.length_map, List.range_eq_range'] at hfull
    exact exists_items_of_full hd hfull hf
  · exact exists_items_of_gaps hd hk hr hs ho hc

end Kept

/-- The node of a primitive is the node of some scalar. -/
theorem exists_primitive {role : Role} {s : Shape} (h : IsPrimitive s) (hr : role ≠ .root) :
    ∃ v : Json, v.Distinct ∧ role.node v = s := by
  have hnode {v : Json} (hv : v.isContainer = false) (hd : v.Distinct) (hk : v.kind? = s.kind)
      (hl : (ofPrimitive v).minLength = s.minLength) :
      ∃ v : Json, v.Distinct ∧ role.node v = s := by
    refine ⟨v, hd, ?_⟩
    rw [node_scalar hr hv]
    exact (isPrimitive_ofPrimitive hv).eq h hk hl
  have hlength := h.minLength
  have hkind := h.kind
  cases hk : s.kind with
  | none =>
    rw [hk, if_neg (by decide)] at hlength
    exact hnode (v := .null) rfl trivial hk.symm hlength.symm
  | some k =>
    rw [hk] at hlength hkind
    cases k with
    | object => cases hkind
    | array => cases hkind
    | boolean => exact hnode (v := .bool true) rfl trivial hk.symm hlength.symm
    | number =>
      exact hnode (v := .natural 0) rfl trivial hk.symm hlength.symm
    | string =>
      obtain hl | hl := hlength
      · have htext : (Json.string "").kind? = some .string := by decide +kernel
        have hempty : (ofPrimitive (.string "")).minLength = some 0 := by
          rw [ofPrimitive_of_kind_eq htext]
          rfl
        exact hnode (v := .string "") rfl trivial (htext.trans hk.symm) (hempty.trans hl.symm)
      · have htext : (Json.string "text").kind? = some .string := by decide +kernel
        have hfull : (ofPrimitive (.string "text")).minLength = some 1 := by
          rw [ofPrimitive_of_kind_eq htext]
          rfl
        exact hnode (v := .string "text") rfl trivial (htext.trans hk.symm) (hfull.trans hl.symm)

/-- Every well-formed node is the node of a document. -/
theorem exists_node {role : Role} {s : Shape} (h : WellFormed role s) :
    ∃ v : Json, v.Distinct ∧ role.node v = s := by
  induction h with
  | primitive h hr => exact exists_primitive h hr
  | @object role s h _ ih =>
    obtain ⟨members, hm, hd⟩ := exists_members h.names ih
    refine ⟨.object members, hd, (isObject_node role hd.keys).eq h ?_⟩
    rw [node_object]
    exact hm
  | @collapsed role s h _ ih =>
    obtain ⟨members, hm, hd⟩ := exists_members h.names ih
    have hdistinct : (Json.array [.object members]).Distinct := ⟨hd, trivial⟩
    have hh : homogeneous [.object members] = true := rfl
    refine ⟨.array [.object members], hdistinct, (isCollapsed_node role hdistinct hh).eq h ?_⟩
    rw [children_node_array role hdistinct]
    exact hm
  | @apart role s h _ ih =>
    obtain ⟨parts, hp, hd⟩ := exists_parts true ih
    have hplaced : Placed (childrenOf true parts) := hp ▸ h.places
    obtain ⟨items, hdistinct, hh, hitems⟩ := exists_items hd hplaced
    refine ⟨.array items, hdistinct, (isApart_node role hdistinct hh).eq h ?_⟩
    rw [children_node_array role hdistinct, hh, hitems]
    exact hp

/-- The trees of documents are exactly the well-formed trees. -/
theorem exists_ofDocument_iff (t : Shape) :
    (∃ v : Json, v.Distinct ∧ ofDocument v = t) ↔ WellFormed .root t := by
  constructor
  · rintro ⟨v, hd, rfl⟩
    exact wellFormed_node hd .root
  · intro h
    exact exists_node h

end SchemaByExample.Shape
