import SchemaByExample.Proofs.Shape.WellFormed

/-! The tree of a document mirrors the document. A node below the root stands for the value
that the names above it lead to, and has its kind. Every value that names lead to has a node,
but for the scalars of an array that begins with an object and is not homogeneous. -/
namespace SchemaByExample

namespace Json

/-- The values one step below a value, in order, each under its name: the members of an object,
the members of the first of like objects, and else the items under their decimal places. -/
def named : Json → List (String × Json)
  | .object members => members
  | .array (.object first :: rest) =>
    if homogeneous (.object first :: rest) then first else placed 0 (.object first :: rest)
  | .array items => placed 0 items
  | _ => []

def resolve? : List String → Json → Option Json
  | [], v => some v
  | k :: path, v => (Members.find? k v.named).bind (resolve? path)

/-- Whether a value one step below has no node: scalars in an array that begins with an object
and is not homogeneous. -/
def leavesOut : Json → Json → Bool
  | .array (.object first :: rest), w =>
    !homogeneous (.object first :: rest) && !w.isContainer
  | _, _ => false

def LeftOut (v : Json) (path : List String) (w : Json) : Prop :=
  ∃ above k u, path = above ++ [k] ∧ v.resolve? above = some u ∧ u.leavesOut w = true

theorem parts_eq_filter (v : Json) : v.parts = v.named.filter fun p => !v.leavesOut p.2 := by
  have hkept (h : ∀ w, v.leavesOut w = false) :
      v.named.filter (fun p => !v.leavesOut p.2) = v.named :=
    List.filter_eq_self.mpr fun p _ => by rw [h, Bool.not_false]
  cases v with
  | array items =>
    cases items with
    | nil => rfl
    | cons first rest =>
      cases first with
      | object members =>
        cases h : homogeneous (.object members :: rest) with
        | true =>
          rw [hkept fun w => by rw [leavesOut, h]; rfl]
          simp only [parts, named, itemParts, h, if_true]
        | false => simp [parts, named, leavesOut, itemParts, h]
      | _ => exact (hkept fun _ => rfl).symm
  | _ => exact (hkept fun _ => rfl).symm

theorem Distinct.keys_named {v : Json} (h : v.Distinct) : (Members.keys v.named).Nodup := by
  cases v with
  | object members => exact h.keys
  | array items =>
    cases items with
    | nil => exact nodup_keys_placed 0 []
    | cons first rest =>
      cases first with
      | object members =>
        rw [named]
        split
        · exact (h.item (by simp)).keys
        · exact nodup_keys_placed 0 _
      | _ => exact nodup_keys_placed 0 _
  | _ => exact .nil

/-- A part is a value one step below that is not left out. -/
theorem find?_parts_iff {v : Json} (hd : v.Distinct) {k : String} {w : Json} :
    Members.find? k v.parts = some w ↔
      Members.find? k v.named = some w ∧ v.leavesOut w = false := by
  have hmem : (k, w) ∈ v.parts ↔ (k, w) ∈ v.named ∧ v.leavesOut w = false := by
    rw [parts_eq_filter, List.mem_filter, Bool.not_eq_true']
  constructor
  · intro h
    obtain ⟨hb, hl⟩ := hmem.mp (Members.mem_of_find? h)
    exact ⟨Members.find?_of_mem hd.keys_named hb, hl⟩
  · rintro ⟨hb, hl⟩
    exact Members.find?_of_mem hd.keys_parts (hmem.mpr ⟨Members.mem_of_find? hb, hl⟩)

theorem resolve?_cons {k : String} {path : List String} {v w : Json}
    (h : v.resolve? (k :: path) = some w) :
    ∃ u, Members.find? k v.named = some u ∧ u.resolve? path = some w :=
  Option.bind_eq_some_iff.mp h

/-- A value that is left out is a scalar, and so no names lead further from it. -/
theorem eq_of_leavesOut {v u w : Json} {path : List String} (h : v.leavesOut u = true)
    (hw : u.resolve? path = some w) : path = [] ∧ u = w := by
  have hu : u.isContainer = false := by
    unfold leavesOut at h
    split at h
    · simp_all
    · cases h
  cases path with
  | nil => exact ⟨rfl, Option.some.inj hw⟩
  | cons k path =>
    obtain ⟨x, hx, -⟩ := resolve?_cons hw
    cases u with
    | array items => cases hu
    | object members => cases hu
    | _ => cases hx

/-- Below a value that has a node, the same values are left out as from above it. -/
theorem leftOut_cons_iff {v u w : Json} {k : String} {path : List String}
    (hk : Members.find? k v.named = some u) (hw : u.resolve? path = some w)
    (hu : v.leavesOut u = false) : LeftOut v (k :: path) w ↔ LeftOut u path w := by
  constructor
  · rintro ⟨above, l, x, hpath, hx, hl⟩
    cases above with
    | nil =>
      cases hpath
      cases hw
      cases hx
      rw [hu] at hl
      cases hl
    | cons k' above =>
      rw [List.cons_append, List.cons.injEq] at hpath
      obtain ⟨rfl, hpath⟩ := hpath
      obtain ⟨u', hu', hx⟩ := resolve?_cons hx
      rw [hk, Option.some.injEq] at hu'
      subst hu'
      exact ⟨above, l, x, hpath, hx, hl⟩
  · rintro ⟨above, l, x, rfl, hx, hl⟩
    refine ⟨k :: above, l, x, rfl, ?_, hl⟩
    rw [resolve?, hk, Option.bind_some, hx]

end Json

namespace Shape

open Json

def at? : List String → Shape → Option Shape
  | [], s => some s
  | k :: path, s => (Members.find? k s.children).bind (at? path)

def keepsApart : Json → Bool
  | .array items => !homogeneous items
  | _ => false

theorem within_ne_root (apart : Bool) : Role.within apart ≠ .root := by
  cases apart <;> decide

/-- Below the root a node has the kind of its value. -/
theorem kind_node {role : Role} (hr : role ≠ .root) {v : Json} (hd : v.Distinct) :
    (role.node v).kind = v.kind? := by
  cases role with
  | root => exact absurd rfl hr
  | member => exact kind_ofPart false hd
  | element => exact kind_ofPart true hd

/-- In every role a node has one child for each part. -/
theorem children_node (role : Role) {v : Json} (hd : v.Distinct) :
    (role.node v).children = childrenOf (keepsApart v) v.parts := by
  have hscalar (h : v.isContainer = false) : (role.node v).children = [] := by
    by_cases hr : role = .root
    · rw [hr, node_root_scalar h]
      rfl
    · rw [node_scalar hr h, (isPrimitive_ofPrimitive h).children]
  cases v with
  | array items => exact children_node_array role hd
  | object members =>
    rw [node_object]
    rfl
  | _ => exact hscalar rfl

/-- One step from a node: to the node of the value below of the same name, if it has one. -/
theorem find?_children_node (role : Role) {v : Json} (hd : v.Distinct) (k : String) :
    Members.find? k (role.node v).children =
      (Members.find? k v.parts).map (Role.within (keepsApart v)).node := by
  rw [children_node role hd, childrenOf, Members.find?_map, node_within]

/-- Where names lead to a node, they lead to a value, and the node is that of the value. -/
theorem resolve?_of_at? {v : Json} (hd : v.Distinct) (role : Role) {path : List String}
    {s : Shape} (h : (role.node v).at? path = some s) :
    ∃ w place, v.resolve? path = some w ∧ w.Distinct ∧ Role.node place w = s ∧
      (place = .root → path = [] ∧ role = .root) := by
  induction path generalizing v role with
  | nil => exact ⟨v, role, rfl, hd, Option.some.inj h, fun hr => ⟨rfl, hr⟩⟩
  | cons k path ih =>
    obtain ⟨c, hc, hs⟩ := Option.bind_eq_some_iff.mp h
    rw [find?_children_node role hd] at hc
    obtain ⟨u, hu, rfl⟩ := Option.map_eq_some_iff.mp hc
    obtain ⟨w, place, hw, hdw, hs, hplace⟩ := ih (hd.part (Members.mem_of_find? hu)) _ hs
    obtain ⟨hnamed, -⟩ := (find?_parts_iff hd).mp hu
    refine ⟨w, place, by rw [resolve?, hnamed, Option.bind_some, hw], hdw, hs, fun hr => ?_⟩
    exact absurd (hplace hr).2 (within_ne_root _)

/-- Where names lead to a value, they lead to a node unless the value is left out. -/
theorem at?_eq_none_iff {v : Json} (hd : v.Distinct) (role : Role) {path : List String} {w : Json}
    (h : v.resolve? path = some w) : (role.node v).at? path = none ↔ LeftOut v path w := by
  induction path generalizing v role with
  | nil => simp [at?, LeftOut]
  | cons k path ih =>
    obtain ⟨u, hu, hw⟩ := resolve?_cons h
    rw [at?, find?_children_node role hd]
    cases hl : v.leavesOut u with
    | true =>
      have hparts : Members.find? k v.parts = none := by
        rw [Option.eq_none_iff_forall_ne_some]
        intro x hx
        obtain ⟨hx, hlx⟩ := (find?_parts_iff hd).mp hx
        rw [hu, Option.some.injEq] at hx
        rw [← hx, hl] at hlx
        cases hlx
      obtain ⟨rfl, rfl⟩ := eq_of_leavesOut hl hw
      rw [hparts]
      exact iff_of_true rfl ⟨[], k, v, rfl, rfl, hl⟩
    | false =>
      have hparts := (find?_parts_iff hd).mpr ⟨hu, hl⟩
      rw [hparts, Option.map_some, Option.bind_some, leftOut_cons_iff hu hw hl]
      exact ih (hd.part (Members.mem_of_find? hparts)) _ hw

/-- The nodes of a document's tree are those of the values that names lead to. A node below the
root has the kind of its value, and the children of a node are in the order of the values below;
the only values without a node are those that are left out. -/
theorem ofDocument_mirrors (v : Json) (hd : v.Distinct) (path : List String) :
    (∀ s, (ofDocument v).at? path = some s → ∃ w, v.resolve? path = some w ∧
      (path ≠ [] → s.kind = w.kind?) ∧
      Members.keys s.children = Members.keys (w.named.filter fun p => !w.leavesOut p.2)) ∧
    ∀ w, v.resolve? path = some w → ((ofDocument v).at? path = none ↔ LeftOut v path w) := by
  refine ⟨fun s hs => ?_, fun w hw => at?_eq_none_iff hd .root hw⟩
  obtain ⟨w, place, hw, hdw, rfl, hplace⟩ := resolve?_of_at? hd .root hs
  refine ⟨w, hw, fun hpath => ?_, ?_⟩
  · exact kind_node (fun hr => hpath (hplace hr).1) hdw
  · rw [children_node place hdw, keys_childrenOf, parts_eq_filter]

def catalogue : Json :=
  .object [
    ("rows", .array [.object [("a", .null), ("b", .string "7")],
      .object [("b", .null), ("a", .bool true)]]),
    ("mixed", .array [.object [], .string "x", .array [.string "y"]])]

theorem ofDocument_mirrors_catalogue : catalogue.Distinct ∧
    (ofDocument catalogue).at? ["mixed", "1"] = none ∧
    ∃ s, (ofDocument catalogue).at? ["mixed", "2"] = some s ∧ s.kind = some .array ∧
      Members.keys s.children = ["0"] := by
  have hd : catalogue.Distinct := by decide
  have hleft : Json.LeftOut catalogue ["mixed", "1"] (.string "x") :=
    ⟨["mixed"], "1", _, rfl, rfl, rfl⟩
  have hs : (ofDocument catalogue).at? ["mixed", "2"] = some (ofPart true (.array [.string "y"])) :=
    rfl
  refine ⟨hd, ((ofDocument_mirrors catalogue hd _).2 _ rfl).mpr hleft, _, hs, ?_⟩
  obtain ⟨w, hw, hk, hc⟩ := (ofDocument_mirrors catalogue hd _).1 _ hs
  obtain rfl : .array [.string "y"] = w := Option.some.inj hw
  exact ⟨hk (by simp), hc⟩

end Shape

end SchemaByExample
