import SchemaByExample.Proofs.Schema.Outline

/-! Emission into accumulators that hold something already. The children of a tree are added
one after the other: each gets the schema that it has by itself, under its name, and what was
there of other names stays as it was. So a run of emissions into one pair of accumulators adds
what each of them yields alone. -/
namespace SchemaByExample

namespace Members

variable {α : Type}

/-- A name of both sides keeps its place and takes the new value, and the names that are new
come behind. -/
def merge (members others : Members α) : Members α :=
  (members.map fun m => (m.1, (find? m.1 others).getD m.2)) ++
    others.filter fun o => o.1 ∉ keys members

theorem merge_nil (members : Members α) : merge members [] = members := by
  simp [merge, find?]

/-- One more name: the step by which pairs are inserted. -/
theorem merge_cons {members rest : Members α} {p : String × α} (hn : (keys members).Nodup)
    (hp : p.1 ∉ keys rest) :
    merge (insert p.1 p.2 members) rest = merge members (p :: rest) := by
  have hnone : find? p.1 rest = none := find?_of_notMem hp
  by_cases hk : p.1 ∈ keys members
  · have hkeys : keys (insert p.1 p.2 members) = keys members := by rw [keys_insert, if_pos hk]
    rw [merge, merge, hkeys, insert_of_mem p.2 hn hk, List.map_map,
      List.filter_cons_of_neg (by simpa using hk)]
    congr 1
    refine List.map_congr_left fun m _ => ?_
    by_cases hm : m.1 = p.1
    · simp [find?, hm, hnone]
    · simp [find?, hm, Ne.symm hm]
  · have hrest : rest.filter (fun o => o.1 ∉ keys (insert p.1 p.2 members)) =
        rest.filter fun o => o.1 ∉ keys members := by
      refine List.filter_congr fun o ho => ?_
      have hne : o.1 ≠ p.1 := fun he => hp (he ▸ mem_keys ho)
      rw [keys_insert, if_neg hk]
      simp [hne]
    have hold : ∀ m ∈ members, m.1 ≠ p.1 := fun m hm he => hk (he ▸ mem_keys hm)
    rw [merge, merge, hrest, insert_of_notMem hk, List.map_append, List.map_singleton, hnone,
      List.filter_cons_of_pos (by simpa using hk), List.append_assoc]
    congr 1
    refine List.map_congr_left fun m hm => ?_
    rw [find?, if_neg (Ne.symm (hold m hm))]

theorem insertAll_eq_merge {members pairs : Members α} (hn : (keys members).Nodup)
    (hp : (keys pairs).Nodup) : insertAll members pairs = merge members pairs := by
  induction pairs generalizing members with
  | nil => exact (merge_nil members).symm
  | cons p rest ih =>
    obtain ⟨hnot, hrest⟩ := List.nodup_cons.mp hp
    rw [← merge_cons hn hnot, ← ih (nodup_keys_insert hn) hrest]
    rfl

end Members

namespace Schema

open Outline

/-- The schema of a child, from what the child emits into empty accumulators of its own. -/
def ofChild (child : Shape) : Schema :=
  match child.kind with
  | some .object =>
    let inner := emit .object child {}
    ofObject inner.properties inner.required
  | some .array =>
    let inner := emit .items child {}
    { kind := some .array
      uniqueItems := child.uniqueItems
      minItems := child.minItems
      items := some (ofMembers inner.properties inner.required) }
  | kind => { kind := kind, minLength := child.minLength.filter (0 < ·) }

theorem ofShape_eq_ofChild (s : Shape) : ofShape s = ofChild s := by
  obtain ⟨kind, children, required, minLength, uniqueItems, minItems⟩ := s
  cases kind with
  | none => rfl
  | some k => cases k <;> rfl

theorem ofShapes_eq_ofChild (children : List (String × Shape)) :
    ofShapes children = children.map fun c => (c.1, ofChild c.2) := by
  simp only [ofShapes_eq_map, ofShape_eq_ofChild]

def Emitted.add (target : Target) (into : Emitted) (child : String × Shape) : Emitted where
  properties := Members.insert child.1 (ofChild child.2) into.properties
  required := if lists target child.2 then into.required ++ [child.1] else into.required

variable {target : Target} {tree : Shape} {into : Emitted}

/-- A tree emits its children one after the other. -/
theorem emit_eq_foldl (target : Target) (tree : Shape) (into : Emitted) :
    emit target tree into = tree.children.foldl (Emitted.add target) into := by
  rw [emit, ofShapes_eq_ofChild]
  generalize tree.children = children
  induction children generalizing into with
  | nil => simp [Members.insertAll, requiredNames]
  | cons c rest ih =>
    rw [List.foldl_cons, ← ih, Emitted.add]
    cases hl : lists target c.2 <;>
      simp [Members.insertAll, requiredNames, hl]

theorem keys_ofChild (children : List (String × Shape)) :
    Members.keys (children.map fun c => (c.1, ofChild c.2)) = Members.keys children := by
  simp [Members.keys, Function.comp_def]

theorem properties_emit (ht : (Members.keys tree.children).Nodup)
    (hi : (Members.keys into.properties).Nodup) :
    (emit target tree into).properties =
      Members.merge into.properties (tree.children.map fun c => (c.1, ofChild c.2)) := by
  rw [emit, ofShapes_eq_ofChild]
  exact Members.insertAll_eq_merge hi (by rwa [keys_ofChild])

/-- What a tree yields by itself. -/
theorem properties_emit_empty (target : Target) (ht : (Members.keys tree.children).Nodup) :
    (emit target tree {}).properties = tree.children.map fun c => (c.1, ofChild c.2) := by
  rw [properties_emit ht (by exact List.nodup_nil)]
  simp [Members.merge, Members.keys]

/-- The schema under the name of a child does not depend on anything but the child. -/
theorem find?_emit (ht : (Members.keys tree.children).Nodup) {c : String × Shape}
    (hc : c ∈ tree.children) (target : Target) (into : Emitted) :
    Members.find? c.1 (emit target tree into).properties = some (ofChild c.2) := by
  have hmem : (c.1, ofChild c.2) ∈ (tree.children.map fun c => (c.1, ofChild c.2)).reverse :=
    List.mem_reverse.mpr (List.mem_map_of_mem hc)
  have hnames : (Members.keys (tree.children.map fun c => (c.1, ofChild c.2)).reverse).Nodup := by
    rw [Members.keys, List.map_reverse, ← Members.keys, keys_ofChild]
    exact (List.reverse_perm _).nodup_iff.mpr ht
  rw [emit, ofShapes_eq_ofChild, Members.find?_insertAll, Members.find?_of_mem hnames hmem]
  rfl

theorem lists_eq (target : Target) (s : Shape) :
    lists target s =
      if s.kind = some .object ∨ s.kind = some .array then decide (target = .object)
      else s.required := by
  rw [lists]
  cases s.kind with
  | none => rfl
  | some k => cases k <;> rfl

def emitAll (steps : List (Target × Shape)) (into : Emitted) : Emitted :=
  steps.foldl (fun e s => emit s.1 s.2 e) into

theorem required_emitAll (steps : List (Target × Shape)) (into : Emitted) :
    (emitAll steps into).required =
      into.required ++ steps.flatMap fun s => (emit s.1 s.2 {}).required := by
  induction steps generalizing into with
  | nil => simp [emitAll]
  | cons s steps ih =>
    rw [emitAll, List.foldl_cons, ← emitAll, ih]
    simp [emit]

theorem nodup_keys_emit (hi : (Members.keys into.properties).Nodup) :
    (Members.keys (emit target tree into).properties).Nodup :=
  Members.nodup_keys_insertAll hi _

theorem properties_emitAll {steps : List (Target × Shape)}
    (hs : ∀ s ∈ steps, (Members.keys s.2.children).Nodup)
    (hi : (Members.keys into.properties).Nodup) :
    (emitAll steps into).properties =
      steps.foldl (fun ps s => Members.merge ps (emit s.1 s.2 {}).properties) into.properties := by
  induction steps generalizing into with
  | nil => rfl
  | cons s steps ih =>
    obtain ⟨ht, hrest⟩ := List.forall_mem_cons.mp hs
    rw [emitAll, List.foldl_cons, ← emitAll, ih hrest (nodup_keys_emit hi), List.foldl_cons,
      properties_emit_empty s.1 ht, properties_emit ht hi]

/-- Emission adds one child after the other. Behind the required names that are there come those
of the children that count as required, in their order: for an object every container, and
always the other children that are required. Among the properties, those of other names stay as
they are, and each child has the schema that it has by itself, in the place of its name or
behind. So in a run of emissions the lists of required names follow each other, and the
properties are merged from left to right. -/
theorem emit_accumulates {tree : Shape} {into : Emitted}
    (ht : (Members.keys tree.children).Nodup) (hi : (Members.keys into.properties).Nodup) :
    (∀ target,
      emit target tree into = tree.children.foldl (Emitted.add target) into ∧
      (emit target tree into).required = into.required ++
        (tree.children.filter fun c =>
          if c.2.kind = some .object ∨ c.2.kind = some .array then decide (target = .object)
          else c.2.required).map (·.1) ∧
      (emit target tree into).properties =
        Members.merge into.properties (tree.children.map fun c => (c.1, ofChild c.2))) ∧
    (∀ c ∈ tree.children, ∀ other : Shape, (Members.keys other.children).Nodup →
      c ∈ other.children → ∀ target target' into',
        Members.find? c.1 (emit target tree into).properties =
          Members.find? c.1 (emit target' other into').properties) ∧
    ∀ steps : List (Target × Shape), (∀ s ∈ steps, (Members.keys s.2.children).Nodup) →
      (emitAll steps into).required =
        into.required ++ steps.flatMap (fun s => (emit s.1 s.2 {}).required) ∧
      (emitAll steps into).properties =
        steps.foldl (fun ps s => Members.merge ps (emit s.1 s.2 {}).properties)
          into.properties := by
  refine ⟨fun target => ⟨emit_eq_foldl target tree into, ?_, properties_emit ht hi⟩, ?_,
    fun steps hs => ⟨required_emitAll steps into, properties_emitAll hs hi⟩⟩
  · simp only [emit, requiredNames, lists_eq]
  · intro c hc other ho hc' target target' into'
    rw [find?_emit ht hc, find?_emit ho hc']

def bundle : Shape where
  kind := some .object
  children := [
    ("size", { kind := some .object, children := [("width", { kind := some .number })] }),
    ("label", { kind := some .string, required := true, minLength := some 1 }),
    ("note", {})]

def draft : Emitted where
  properties := [("label", { kind := some .boolean }), ("owner", { kind := some .string })]
  required := ["owner"]

theorem emit_accumulates_draft :
    (Members.keys bundle.children).Nodup ∧ (Members.keys draft.properties).Nodup ∧
      (emit .items bundle draft).required = ["owner", "label"] ∧
      Members.keys (emit .items bundle draft).properties = ["label", "owner", "size", "note"] ∧
      (emitAll [(.items, bundle), (.object, bundle)] draft).required =
        ["owner", "label", "size", "label"] := by
  have ht : (Members.keys bundle.children).Nodup := by decide
  have hi : (Members.keys draft.properties).Nodup := by decide
  obtain ⟨hstep, -, hrun⟩ := emit_accumulates ht hi
  obtain ⟨-, hrequired, hproperties⟩ := hstep .items
  have hnames : ∀ s ∈ [(Target.items, bundle), (Target.object, bundle)],
      (Members.keys s.2.children).Nodup := by decide
  refine ⟨ht, hi, ?_, ?_, ?_⟩
  · rw [hrequired]
    decide
  · rw [hproperties]
    decide
  · rw [(hrun _ hnames).1]
    decide

end Schema

end SchemaByExample
