import SchemaByExample.Proofs.Shape.Recovery

/-! The forms of the schemas in a compiled document. Whatever the tree, and also where no
document has it, each schema in its document is an object, an array, a wrapper around the
properties of an array's items, or a primitive, and lists as required only names of its
properties. -/
namespace SchemaByExample

inductive Shape.Distinct : Shape → Prop
  | intro {s : Shape} : (Members.keys s.children).Nodup → (∀ c ∈ s.children, Distinct c.2) →
      Distinct s

theorem Shape.Distinct.names {s : Shape} : s.Distinct → (Members.keys s.children).Nodup
  | .intro hn _ => hn

theorem Shape.Distinct.child {s : Shape} : s.Distinct → ∀ c ∈ s.children, c.2.Distinct
  | .intro _ hc => hc

theorem Shape.WellFormed.distinct {role : Role} {s : Shape} (h : WellFormed role s) :
    s.Distinct := by
  induction h with
  | primitive h _ => exact .intro (by rw [h.children]; exact .nil) (by simp [h.children])
  | object h _ ih => exact .intro h.names ih
  | collapsed h _ ih => exact .intro h.names ih
  | apart h _ ih => exact .intro h.places.names ih

namespace Schema

open Outline

inductive Branch where
  | items
  | property (name : String)

def branch? (s : Schema) : Branch → Option Schema
  | .items => s.items
  | .property k => s.properties.bind (Members.find? k)

def descend : List Branch → Schema → Option Schema
  | [], s => some s
  | b :: path, s => (s.branch? b).bind (descend path)

theorem descend_append (path more : List Branch) (s : Schema) :
    descend (path ++ more) s = (descend path s).bind (descend more) := by
  induction path generalizing s with
  | nil => rfl
  | cons b path ih =>
    rw [List.cons_append, descend, descend, Option.bind_assoc]
    exact congrArg _ (funext ih)

theorem descend_singleton (b : Branch) (s : Schema) : descend [b] s = s.branch? b :=
  Option.bind_fun_some (s.branch? b)

structure IsObject (s : Schema) : Prop where
  kind : s.kind = some .object
  properties : s.properties.isSome = true
  required : s.required.isSome = true
  minLength : s.minLength = none
  minItems : s.minItems = none
  uniqueItems : s.uniqueItems = none
  items : s.items = none

structure IsArray (s : Schema) : Prop where
  kind : s.kind = some .array
  items : s.items.isSome = true
  minLength : s.minLength = none
  properties : s.properties = none
  required : s.required = none

structure IsWrapper (s : Schema) : Prop where
  properties : s.properties.isSome = true
  required : s.required.isSome = true
  dialect : s.dialect = none
  description : s.description = none
  kind : s.kind = none
  minLength : s.minLength = none
  minItems : s.minItems = none
  uniqueItems : s.uniqueItems = none
  items : s.items = none

/-- At most the kind of a primitive and a least length, which is not zero. -/
structure IsPrimitive (s : Schema) : Prop where
  kind : isContainerKind s.kind = false
  minLength : ∀ n, s.minLength = some n → 1 ≤ n
  dialect : s.dialect = none
  description : s.description = none
  minItems : s.minItems = none
  uniqueItems : s.uniqueItems = none
  items : s.items = none
  properties : s.properties = none
  required : s.required = none

inductive Form where
  | object | array | wrapper | primitive

/-- Whether a schema at a place of a document has a form. Wrappers stand only in arrays below
the root. -/
def Form.Fits (document : Schema) (path : List Branch) (s : Schema) : Form → Prop
  | .object => s.IsObject
  | .array => s.IsArray
  | .wrapper => s.IsWrapper ∧ ∃ above a, path = above ++ [.items] ∧ above ≠ [] ∧
      document.descend above = some a ∧ a.IsArray
  | .primitive => s.IsPrimitive

/-- The required names that a schema lists are names of its properties, in their order. -/
def Listed (s : Schema) : Prop :=
  ∀ ps names, s.properties = some ps → s.required = some names →
    names.Nodup ∧ names.Sublist (Members.keys ps)

def ListsScalars (s : Schema) : Prop :=
  ∀ ps names, s.properties = some ps → s.required = some names →
    ∀ k ∈ names, ∀ p, Members.find? k ps = some p → isContainerKind p.kind = false

/-- A schema at a place of a document that has one of the forms and the marks of its place. -/
structure Regular (document : Schema) (path : List Branch) (s : Schema) : Prop where
  paired : s.properties.isSome = s.required.isSome
  listed : s.Listed
  dialect : s.dialect.isSome = path.isEmpty
  description : s.description.isSome = path.isEmpty
  form : ∃ form : Form, form.Fits document path s ∧
    ∀ other : Form, other.Fits document path s → other = form
  scalars : s.IsWrapper → s.ListsScalars

/-! What a tree compiles to, place by place. -/

def wrapper (s : Shape) : Schema :=
  ofMembers (Members.ofPairs (ofShapes s.children)) (requiredNames .items s.children)

inductive Compiled : List Branch → Schema → Prop
  | document {t : Shape} : t.Distinct → Compiled [] (compile t)
  | rootItems {t : Shape} : t.Distinct → Compiled [.items] (rootObject t)
  | node {path : List Branch} {s : Shape} : path ≠ [] → s.Distinct → Compiled path (ofShape s)
  | wrapper {path : List Branch} {s : Shape} : path ≠ [] → s.Distinct →
      Compiled (path ++ [.items]) (wrapper s)

theorem compile_of_ne_object {t : Shape} (h : t.kind ≠ some .object) :
    compile t = asDocument
      { kind := some .array
        minItems := some 1
        uniqueItems := some true
        items := some (rootObject t) } := by
  rw [compile, if_neg h]
  rfl

/-- The schema of a child, by its kind. -/
theorem ofShape_cases (s : Shape) :
    (s.kind = some .object ∧ ofShape s = rootObject s) ∨
    (s.kind = some .array ∧ ofShape s =
      { kind := some .array
        uniqueItems := s.uniqueItems
        minItems := s.minItems
        items := some (wrapper s) }) ∨
    (isContainerKind s.kind = false ∧
      ofShape s = { kind := s.kind, minLength := s.minLength.filter (0 < ·) }) := by
  cases hk : s.kind with
  | none => exact .inr (.inr ⟨rfl, hk ▸ Shape.ofShape_of_scalar (by rw [hk]; rfl)⟩)
  | some k =>
    cases k with
    | object => exact .inl ⟨rfl, ofShape_of_object hk⟩
    | array => exact .inr (.inl ⟨rfl, ofShape_of_array hk⟩)
    | _ => exact .inr (.inr ⟨rfl, hk ▸ Shape.ofShape_of_scalar (by rw [hk]; rfl)⟩)

theorem keys_ofShapes {children : List (String × Shape)} (h : (Members.keys children).Nodup) :
    Members.keys (Members.ofPairs (ofShapes children)) = Members.keys children := by
  rw [Shape.ofPairs_ofShapes h]
  simp [Members.keys, Function.comp_def]

theorem find?_ofShapes {children : List (String × Shape)} (h : (Members.keys children).Nodup)
    (k : String) : Members.find? k (Members.ofPairs (ofShapes children)) =
      (Members.find? k children).map ofShape := by
  rw [Shape.ofPairs_ofShapes h, Members.find?_map]

/-- A property is compiled from the child of its name. -/
theorem Compiled.property {path : List Branch} {t : Shape} (ht : t.Distinct) {k : String}
    {n : Schema} (h : Members.find? k (Members.ofPairs (ofShapes t.children)) = some n) :
    Compiled (path ++ [.property k]) n := by
  rw [find?_ofShapes ht.names] at h
  obtain ⟨c, hc, rfl⟩ := Option.map_eq_some_iff.mp h
  exact .node (by simp) (ht.child _ (Members.mem_of_find? hc))

/-- What a branch of a compiled schema leads to is compiled. -/
theorem Compiled.step {path : List Branch} {s n : Schema} {b : Branch} (h : Compiled path s)
    (hb : s.branch? b = some n) : Compiled (path ++ [b]) n := by
  cases h with
  | @document t ht =>
    by_cases hk : t.kind = some .object
    · rw [compile_of_object hk] at hb
      cases b with
      | items => cases hb
      | property k => exact .property ht hb
    · rw [compile_of_ne_object hk] at hb
      cases b with
      | items =>
        cases hb
        exact .rootItems ht
      | property k => cases hb
  | rootItems ht =>
    cases b with
    | items => cases hb
    | property k => exact .property ht hb
  | @node path s hp hs =>
    obtain ⟨-, h⟩ | ⟨-, h⟩ | ⟨-, h⟩ := ofShape_cases s <;> rw [h] at hb
    · cases b with
      | items => cases hb
      | property k => exact .property hs hb
    · cases b with
      | items =>
        cases hb
        exact .wrapper hp hs
      | property k => cases hb
    · cases b <;> cases hb
  | wrapper _ hs =>
    cases b with
    | items => cases hb
    | property k => exact .property hs hb

/-- So is what any branches lead to. -/
theorem Compiled.descend {path more : List Branch} {s n : Schema} (h : Compiled path s)
    (hn : s.descend more = some n) : Compiled (path ++ more) n := by
  induction more generalizing path s with
  | nil =>
    cases hn
    rwa [List.append_nil]
  | cons b more ih =>
    obtain ⟨m, hm, hn⟩ := Option.bind_eq_some_iff.mp hn
    have hrest := ih (h.step hm) hn
    rwa [List.append_assoc] at hrest

/-! No properties in a compiled schema repeat a name. -/

theorem distinct_ofShapes {children : List (String × Shape)} (hn : (Members.keys children).Nodup)
    (hc : ∀ c ∈ children, (ofShape c.2).Distinct) :
    DistinctProperties (some (Members.ofPairs (ofShapes children))) := by
  refine ⟨by rwa [keys_ofShapes hn], ?_⟩
  rw [Shape.ofPairs_ofShapes hn, distinctMembers_iff, List.forall_mem_map]
  exact hc

theorem distinct_ofShape {s : Shape} (h : s.Distinct) : (ofShape s).Distinct := by
  induction h with
  | @intro s hn _ ih =>
    have hp := distinct_ofShapes hn ih
    obtain ⟨-, h⟩ | ⟨-, h⟩ | ⟨-, h⟩ := ofShape_cases s <;> rw [h]
    · exact ⟨trivial, hp⟩
    · exact ⟨⟨trivial, hp⟩, trivial⟩
    · exact ⟨trivial, trivial⟩

theorem distinct_compile {t : Shape} (ht : t.Distinct) : (compile t).Distinct := by
  have hp := distinct_ofShapes ht.names fun c hc => distinct_ofShape (ht.child c hc)
  rw [compile]
  split
  · exact ⟨trivial, hp⟩
  · exact ⟨⟨trivial, hp⟩, trivial⟩

/-! What is told of a compiled schema. -/

theorem requiredNames_sublist (target : Target) (children : List (String × Shape)) :
    (requiredNames target children).Sublist (Members.keys children) :=
  List.filter_sublist.map Prod.fst

/-- A compiled schema lists properties and required names of the same children, or neither. -/
theorem Compiled.children {path : List Branch} {s : Schema} (h : Compiled path s) :
    (s.properties = none ∧ s.required = none) ∨
    ∃ (t : Shape) (target : Target), t.Distinct ∧
      s.properties = some (Members.ofPairs (ofShapes t.children)) ∧
      s.required = some (requiredNames target t.children) := by
  cases h with
  | @document t ht =>
    by_cases hk : t.kind = some .object
    · rw [compile_of_object hk]
      exact .inr ⟨t, .object, ht, rfl, rfl⟩
    · rw [compile_of_ne_object hk]
      exact .inl ⟨rfl, rfl⟩
  | @rootItems t ht => exact .inr ⟨t, .object, ht, rfl, rfl⟩
  | @node path s _ hs =>
    obtain ⟨-, h⟩ | ⟨-, h⟩ | ⟨-, h⟩ := ofShape_cases s <;> rw [h]
    · exact .inr ⟨s, .object, hs, rfl, rfl⟩
    · exact .inl ⟨rfl, rfl⟩
    · exact .inl ⟨rfl, rfl⟩
  | @wrapper path s _ hs => exact .inr ⟨s, .items, hs, rfl, rfl⟩

theorem Compiled.paired {path : List Branch} {s : Schema} (h : Compiled path s) :
    s.properties.isSome = s.required.isSome := by
  obtain ⟨hp, hr⟩ | ⟨t, target, -, hp, hr⟩ := h.children <;> rw [hp, hr] <;> rfl

theorem Compiled.listed {path : List Branch} {s : Schema} (h : Compiled path s) : s.Listed := by
  intro ps names hps hnames
  obtain ⟨hp, -⟩ | ⟨t, target, ht, hp, hr⟩ := h.children
  · rw [hp] at hps
    cases hps
  · rw [hp, Option.some.injEq] at hps
    rw [hr, Option.some.injEq] at hnames
    subst hps hnames
    have hsub := requiredNames_sublist target t.children
    rw [keys_ofShapes ht.names]
    exact ⟨ht.names.sublist hsub, hsub⟩

/-- Only a document has the marks of one. -/
theorem Compiled.marks {path : List Branch} {s : Schema} (h : Compiled path s) :
    s.dialect.isSome = path.isEmpty ∧ s.description.isSome = path.isEmpty := by
  cases h with
  | @document t _ =>
    rw [compile]
    split <;> exact ⟨rfl, rfl⟩
  | rootItems _ => exact ⟨rfl, rfl⟩
  | @node path s hp _ =>
    rw [List.isEmpty_eq_false_iff.mpr hp]
    obtain ⟨-, h⟩ | ⟨-, h⟩ | ⟨-, h⟩ := ofShape_cases s <;> rw [h] <;> exact ⟨rfl, rfl⟩
  | @wrapper path s _ _ =>
    have hne : (path ++ [Branch.items]).isEmpty = false := by simp
    rw [hne]
    exact ⟨rfl, rfl⟩

theorem isPrimitive_of_kind {kind : Option Kind} (h : isContainerKind kind = false)
    (minLength : Option UInt32) :
    IsPrimitive { kind := kind, minLength := minLength.filter (0 < ·) } := by
  refine ⟨h, fun n hn => ?_, rfl, rfl, rfl, rfl, rfl, rfl, rfl⟩
  obtain ⟨-, hpos⟩ := Option.filter_eq_some_iff.mp hn
  have hlt : (0 : UInt32) < n := by simpa using hpos
  rw [UInt32.lt_iff_toNat_lt] at hlt
  exact UInt32.le_iff_toNat_le.mpr hlt

/-- The form of a compiled schema; a wrapper is known by where it stands. -/
theorem Compiled.form {path : List Branch} {s : Schema} (h : Compiled path s) :
    s.IsObject ∨ s.IsArray ∨ (s.IsWrapper ∧ ∃ above, path = above ++ [.items] ∧ above ≠ []) ∨
      s.IsPrimitive := by
  cases h with
  | @document t _ =>
    by_cases hk : t.kind = some .object
    · rw [compile_of_object hk]
      exact .inl ⟨rfl, rfl, rfl, rfl, rfl, rfl, rfl⟩
    · rw [compile_of_ne_object hk]
      exact .inr (.inl ⟨rfl, rfl, rfl, rfl, rfl⟩)
  | rootItems _ => exact .inl ⟨rfl, rfl, rfl, rfl, rfl, rfl, rfl⟩
  | @node path s _ _ =>
    obtain ⟨-, h⟩ | ⟨-, h⟩ | ⟨hk, h⟩ := ofShape_cases s <;> rw [h]
    · exact .inl ⟨rfl, rfl, rfl, rfl, rfl, rfl, rfl⟩
    · exact .inr (.inl ⟨rfl, rfl, rfl, rfl, rfl⟩)
    · exact .inr (.inr (.inr (isPrimitive_of_kind hk s.minLength)))
  | @wrapper above s ha _ =>
    exact .inr (.inr (.inl ⟨⟨rfl, rfl, rfl, rfl, rfl, rfl, rfl, rfl, rfl⟩, above, rfl, ha⟩))

/-- Only an array has items. -/
theorem Compiled.isArray {path : List Branch} {s i : Schema} (h : Compiled path s)
    (hi : s.items = some i) : s.IsArray := by
  obtain h | h | ⟨h, -⟩ | h := h.form
  · simp [h.items] at hi
  · exact h
  · simp [h.items] at hi
  · simp [h.items] at hi

/-- The names that a wrapper lists are those of primitive children. -/
theorem listsScalars_wrapper {t : Shape} (ht : t.Distinct) : (wrapper t).ListsScalars := by
  intro ps names hps hnames k hk p hp
  cases hps
  cases hnames
  obtain ⟨c, hc, rfl⟩ := List.mem_map.mp hk
  obtain ⟨hmem, hlists⟩ := List.mem_filter.mp hc
  rw [find?_ofShapes ht.names, Members.find?_of_mem ht.names hmem] at hp
  cases hp
  rw [Shape.kind_ofShape]
  cases hkind : isContainerKind c.2.kind with
  | false => rfl
  | true => simp [lists, hkind] at hlists

def form (s : Schema) : Form :=
  match s.kind with
  | some .object => .object
  | some .array => .array
  | _ => if s.properties.isSome then .wrapper else .primitive

theorem form_of_fits {document s : Schema} {path : List Branch} {f : Form}
    (h : f.Fits document path s) : f = s.form := by
  cases f with
  | object => rw [form, h.kind]
  | array => rw [form, h.kind]
  | wrapper => rw [form, h.1.kind, if_pos h.1.properties]
  | primitive =>
    have hk := h.kind
    rw [form, h.properties]
    split
    · simp_all [isContainerKind]
    · simp_all [isContainerKind]
    · rfl

theorem Compiled.scalars {path : List Branch} {s : Schema} (h : Compiled path s)
    (hw : s.IsWrapper) : s.ListsScalars := by
  cases h with
  | @document t _ =>
    have hd := hw.dialect
    rw [compile] at hd
    split at hd <;> cases hd
  | rootItems _ => exact absurd hw.kind (by simp [rootObject, ofObject])
  | @node path s _ _ =>
    obtain ⟨-, h⟩ | ⟨-, h⟩ | ⟨-, h⟩ := ofShape_cases s <;> rw [h] at hw
    · exact absurd hw.kind (by simp [rootObject, ofObject])
    · exact absurd hw.kind (by simp)
    · exact absurd hw.properties (by simp)
  | wrapper _ ht => exact listsScalars_wrapper ht

/-- Every schema in the document of a tree is regular, whatever marks the tree has. -/
theorem regular_compile {t : Shape} (ht : t.Distinct) {path : List Branch} {s : Schema}
    (h : (compile t).descend path = some s) : Regular (compile t) path s := by
  have hroot : Compiled [] (compile t) := .document ht
  have hs : Compiled path s := hroot.descend h
  refine ⟨hs.paired, hs.listed, hs.marks.1, hs.marks.2, ?_, hs.scalars⟩
  have hform : ∃ f : Form, f.Fits (compile t) path s := by
    obtain hf | hf | ⟨hf, above, rfl, ha⟩ | hf := hs.form
    · exact ⟨.object, hf⟩
    · exact ⟨.array, hf⟩
    · rw [descend_append] at h
      obtain ⟨a, hdescend, hitems⟩ := Option.bind_eq_some_iff.mp h
      rw [descend_singleton] at hitems
      have ha' : Compiled above a := hroot.descend hdescend
      exact ⟨.wrapper, hf, above, a, rfl, ha, hdescend, ha'.isArray hitems⟩
    · exact ⟨.primitive, hf⟩
  obtain ⟨f, hf⟩ := hform
  exact ⟨f, hf, fun other ho => (form_of_fits ho).trans (form_of_fits hf).symm⟩

/-- A tree that no document has: a root without a kind, a number with children and a length, a
null that is required, and marks on an object. -/
def patchwork : Shape where
  children := [
    ("number", { kind := some .number, children := [("part", {})], minLength := some 0 }),
    ("list", {
      kind := some .array
      minLength := some 7
      children := [
        ("null", { required := true, minLength := some 2, minItems := some 3 }),
        ("object", { kind := some .object, required := true, uniqueItems := some false })] })]

theorem distinct_patchwork : patchwork.Distinct := by
  have leaf (kind : Option Kind) (required : Bool) (minLength : Option UInt32)
      (uniqueItems : Option Bool) (minItems : Option UInt32) :
      Shape.Distinct ⟨kind, [], required, minLength, uniqueItems, minItems⟩ :=
    .intro .nil (by simp)
  refine .intro (by decide) (List.forall_mem_cons.mpr ⟨.intro (by decide) ?_,
    List.forall_mem_singleton.mpr (.intro (by decide) ?_)⟩)
  · exact List.forall_mem_singleton.mpr (leaf _ _ _ _ _)
  · exact List.forall_mem_cons.mpr ⟨leaf _ _ _ _ _, List.forall_mem_singleton.mpr (leaf _ _ _ _ _)⟩

def patch : Schema where
  properties := some [("null", { minLength := some 2 }), ("object", ofObject [] [])]
  required := some ["null"]

theorem regular_compile_patchwork : patchwork.Distinct ∧
    (compile patchwork).descend [.items, .property "list", .items] = some patch ∧
    Regular (compile patchwork) [.items, .property "list", .items] patch :=
  ⟨distinct_patchwork, rfl, regular_compile distinct_patchwork rfl⟩

end Schema

end SchemaByExample
