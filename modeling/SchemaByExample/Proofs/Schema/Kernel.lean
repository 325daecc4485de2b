import SchemaByExample.Proofs.Schema.Forms

/-! The kernel of compilation. Of a tree its document shows some marks and not others, by the
kind of each node. Erasing what is not shown changes nothing in the document, and trees with one
document are equal once it is erased. -/
namespace SchemaByExample

namespace Shape

mutual

def erase : Shape → Shape
  | ⟨some .object, children, _, _, _, _⟩ =>
    { kind := some .object, children := eraseAll children }
  | ⟨some .array, children, _, _, uniqueItems, minItems⟩ =>
    { kind := some .array
      children := eraseAll children
      uniqueItems := uniqueItems
      minItems := minItems }
  | ⟨kind, _, required, minLength, _, _⟩ =>
    { kind := kind, required := required, minLength := minLength.filter (0 < ·) }

def eraseAll : List (String × Shape) → List (String × Shape)
  | [] => []
  | (k, s) :: rest => (k, erase s) :: eraseAll rest

end

/-- A tree without what its document does not show. Of the root only the children are shown,
and whether it is an object. -/
def eraseRoot (tree : Shape) : Shape where
  kind := if tree.kind = some .object then some .object else none
  children := eraseAll tree.children

theorem eraseAll_eq_map (children : List (String × Shape)) :
    eraseAll children = children.map fun c => (c.1, erase c.2) := by
  induction children with
  | nil => rfl
  | cons c rest ih => rw [eraseAll, ih, List.map_cons]

/-- What is left of a child, by its kind. -/
theorem erase_of_object {s : Shape} (h : s.kind = some .object) :
    erase s = { kind := some .object, children := eraseAll s.children } := by
  obtain ⟨kind, children, required, minLength, uniqueItems, minItems⟩ := s
  subst h
  rw [erase]

theorem erase_of_array {s : Shape} (h : s.kind = some .array) :
    erase s =
      { kind := some .array
        children := eraseAll s.children
        uniqueItems := s.uniqueItems
        minItems := s.minItems } := by
  obtain ⟨kind, children, required, minLength, uniqueItems, minItems⟩ := s
  subst h
  rw [erase]

theorem erase_of_scalar {s : Shape} (h : Schema.isContainerKind s.kind = false) :
    erase s =
      { kind := s.kind, required := s.required, minLength := s.minLength.filter (0 < ·) } := by
  obtain ⟨kind, children, required, minLength, uniqueItems, minItems⟩ := s
  rw [erase]
  · rintro rfl
    cases h
  · rintro rfl
    cases h

end Shape

namespace Schema

open Outline Shape

/-! Erasing changes nothing in what is compiled. -/

theorem lists_erase (target : Target) (s : Shape) : lists target s.erase = lists target s := by
  obtain ⟨hk, -⟩ | ⟨hk, -⟩ | ⟨hk, -⟩ := ofShape_cases s
  · rw [erase_of_object hk, lists, lists, hk]
    rfl
  · rw [erase_of_array hk, lists, lists, hk]
    rfl
  · rw [erase_of_scalar hk, lists, lists]

theorem requiredNames_eraseAll (target : Target) (children : List (String × Shape)) :
    requiredNames target (eraseAll children) = requiredNames target children := by
  rw [eraseAll_eq_map, requiredNames, requiredNames, List.filter_map, List.map_map]
  simp only [Function.comp_def, lists_erase]

mutual

theorem ofShape_erase : (s : Shape) → ofShape s.erase = ofShape s
  | ⟨some .object, children, _, _, _, _⟩ => by
    rw [erase, ofShape, ofShape, ofShapes_eraseAll children, requiredNames_eraseAll]
  | ⟨some .array, children, _, _, _, _⟩ => by
    rw [erase, ofShape, ofShape, ofShapes_eraseAll children, requiredNames_eraseAll]
  | ⟨none, _, _, minLength, _, _⟩ | ⟨some .string, _, _, minLength, _, _⟩
  | ⟨some .number, _, _, minLength, _, _⟩ | ⟨some .boolean, _, _, minLength, _, _⟩ => by
    simp [erase, ofShape]

theorem ofShapes_eraseAll : (children : List (String × Shape)) →
    ofShapes (eraseAll children) = ofShapes children
  | [] => rfl
  | (k, s) :: rest => by
    rw [eraseAll, ofShapes, ofShapes, ofShape_erase s, ofShapes_eraseAll rest]

end

theorem compile_eraseRoot (tree : Shape) : compile tree.eraseRoot = compile tree := by
  have hkind : tree.eraseRoot.kind = some .object ↔ tree.kind = some .object := by
    rw [eraseRoot]
    split <;> simp [*]
  have hemit : emit .object tree.eraseRoot {} = emit .object tree {} := by
    simp only [emit, eraseRoot, ofShapes_eraseAll, requiredNames_eraseAll]
  simp only [compile, hemit, hkind]

/-! What is compiled determines what erasing leaves. -/

/-- A child that counts as required is listed under its name. -/
theorem mem_requiredNames {target : Target} {children : List (String × Shape)}
    (hn : (Members.keys children).Nodup) {c : String × Shape} (hc : c ∈ children) :
    c.1 ∈ requiredNames target children ↔ lists target c.2 = true := by
  rw [requiredNames, List.mem_map]
  constructor
  · rintro ⟨d, hd, hname⟩
    obtain ⟨hd, hlisted⟩ := List.mem_filter.mp hd
    have hsame : some d.2 = some c.2 :=
      (Members.find?_of_mem hn hd).symm.trans (hname ▸ Members.find?_of_mem hn hc)
    rwa [← Option.some.inj hsame]
  · intro hlisted
    exact ⟨c, List.mem_filter.mpr ⟨hc, hlisted⟩, rfl⟩

/-- Children are told up to what is erased by their schemas and the names that are listed, if
each child is told by its schema and whether it is listed. -/
theorem eraseAll_eq {target : Target} {children others : List (String × Shape)}
    (hc : (Members.keys children).Nodup) (ho : (Members.keys others).Nodup)
    (hp : Members.ofPairs (ofShapes children) = Members.ofPairs (ofShapes others))
    (hr : requiredNames target children = requiredNames target others)
    (h : ∀ c ∈ children, ∀ d ∈ others, ofShape c.2 = ofShape d.2 →
      lists target c.2 = lists target d.2 → erase c.2 = erase d.2) :
    eraseAll children = eraseAll others := by
  rw [ofPairs_ofShapes hc, ofPairs_ofShapes ho] at hp
  rw [eraseAll_eq_map, eraseAll_eq_map]
  refine Members.map_eq_of_map_eq hp fun c hcm d hdm hname hschema => h c hcm d hdm hschema ?_
  rw [Bool.eq_iff_iff, ← mem_requiredNames hc hcm, ← mem_requiredNames ho hdm, hr, hname]

/-- A child is told, up to what is erased, by its schema and whether it is listed. -/
theorem erase_eq {target : Target} {s t : Shape} (hs : s.Distinct) (ht : t.Distinct)
    (h : ofShape s = ofShape t) (hl : lists target s = lists target t) : erase s = erase t := by
  have hkind := kind_eq_of_ofShape h
  induction hs generalizing t target with
  | @intro s hn _ ih =>
    have hchildren (target : Target)
        (hp : Members.ofPairs (ofShapes s.children) = Members.ofPairs (ofShapes t.children))
        (hr : requiredNames target s.children = requiredNames target t.children) :
        eraseAll s.children = eraseAll t.children :=
      eraseAll_eq hn ht.names hp hr fun c hcm d hdm hschema hlisted =>
        ih c hcm (ht.child d hdm) hschema hlisted (kind_eq_of_ofShape hschema)
    obtain ⟨hk, hs⟩ | ⟨hk, hs⟩ | ⟨hk, hs⟩ := ofShape_cases s
    · have hk' : t.kind = some .object := hkind ▸ hk
      rw [ofShape_of_object hk, ofShape_of_object hk'] at h
      have hproperties := Option.some.inj (congrArg Schema.properties h)
      have hrequired := Option.some.inj (congrArg Schema.required h)
      rw [erase_of_object hk, erase_of_object hk', hchildren .object hproperties hrequired]
    · have hk' : t.kind = some .array := hkind ▸ hk
      rw [ofShape_of_array hk, ofShape_of_array hk'] at h
      have huniqueItems : s.uniqueItems = t.uniqueItems := congrArg Schema.uniqueItems h
      have hminItems : s.minItems = t.minItems := congrArg Schema.minItems h
      have hitems := Option.some.inj (congrArg Schema.items h)
      have hproperties := Option.some.inj (congrArg Schema.properties hitems)
      have hrequired := Option.some.inj (congrArg Schema.required hitems)
      rw [erase_of_array hk, erase_of_array hk', hchildren .items hproperties hrequired,
        huniqueItems, hminItems]
    · have hk' : isContainerKind t.kind = false := hkind ▸ hk
      rw [ofShape_of_scalar hk, ofShape_of_scalar hk'] at h
      have hminLength : s.minLength.filter (0 < ·) = t.minLength.filter (0 < ·) :=
        congrArg Schema.minLength h
      have hrequired : s.required = t.required := by
        rwa [lists, lists, hk, hk'] at hl
      rw [erase_of_scalar hk, erase_of_scalar hk', hkind, hrequired, hminLength]

/-- Whether the root is an object is told by the kind of the document. -/
theorem kind_compile (t : Shape) :
    (compile t).kind = if t.kind = some .object then some .object else some .array := by
  rw [compile]
  split <;> rfl

/-- The object that describes a document, or its items, tells the children of the root. -/
theorem eraseAll_eq_of_rootObject {t u : Shape} (ht : t.Distinct) (hu : u.Distinct)
    (hp : (rootObject t).properties = (rootObject u).properties)
    (hr : (rootObject t).required = (rootObject u).required) :
    eraseAll t.children = eraseAll u.children :=
  eraseAll_eq ht.names hu.names (Option.some.inj hp) (Option.some.inj hr) fun c hc d hd =>
    erase_eq (ht.child c hc) (hu.child d hd)

theorem eraseRoot_eq {t u : Shape} (ht : t.Distinct) (hu : u.Distinct)
    (h : compile t = compile u) : t.eraseRoot = u.eraseRoot := by
  have hkinds := congrArg Schema.kind h
  rw [kind_compile, kind_compile] at hkinds
  by_cases hobject : t.kind = some .object
  · have hobject' : u.kind = some .object := by
      refine Decidable.byContradiction fun hne => ?_
      rw [if_pos hobject, if_neg hne] at hkinds
      cases hkinds
    rw [compile_of_object hobject, compile_of_object hobject'] at h
    have hproperties : (rootObject t).properties = (rootObject u).properties :=
      (congrArg Schema.properties h :)
    have hrequired : (rootObject t).required = (rootObject u).required :=
      (congrArg Schema.required h :)
    have hchildren := eraseAll_eq_of_rootObject ht hu hproperties hrequired
    rw [eraseRoot, eraseRoot, if_pos hobject, if_pos hobject', hchildren]
  · have hobject' : u.kind ≠ some .object := by
      intro he
      rw [if_neg hobject, if_pos he] at hkinds
      cases hkinds
    rw [compile_of_ne_object hobject, compile_of_ne_object hobject'] at h
    have hitems := Option.some.inj (congrArg Schema.items h)
    have hchildren := eraseAll_eq_of_rootObject ht hu (congrArg Schema.properties hitems)
      (congrArg Schema.required hitems)
    rw [eraseRoot, eraseRoot, if_neg hobject, if_neg hobject', hchildren]

/-- Two trees have one document exactly if they are equal but for what a document does not show:
of the root everything but its children and whether it is an object; of an object its marks; of
an array whether it is required, and its length; of every other node its children, the marks of
arrays and a length of zero. -/
theorem compile_eq_iff {t u : Shape} (ht : t.Distinct) (hu : u.Distinct) :
    compile t = compile u ↔ t.eraseRoot = u.eraseRoot := by
  constructor
  · exact eraseRoot_eq ht hu
  · intro h
    rw [← compile_eraseRoot t, h, compile_eraseRoot]

def overmarked : Shape where
  kind := some .boolean
  required := true
  children := [
    ("a", {
      kind := some .object, required := true, minItems := some 2
      children := [("b", { kind := some .string, minLength := some 0, uniqueItems := some true })] }),
    ("c", { kind := some .array, minLength := some 3, minItems := some 4 })]

def plain : Shape where
  kind := some .array
  children := [
    ("a", { kind := some .object, children := [("b", { kind := some .string })] }),
    ("c", { kind := some .array, required := true, minItems := some 4 })]

theorem compile_eq_iff_overmarked :
    overmarked.Distinct ∧ plain.Distinct ∧ compile overmarked = compile plain := by
  have hleaf {s : Shape} (h : s.children = []) : s.Distinct := .intro (by simp [h, Members.keys])
    (by simp [h])
  have ht : overmarked.Distinct := .intro (by decide) (List.forall_mem_cons.mpr
    ⟨.intro (by decide) (List.forall_mem_singleton.mpr (hleaf rfl)),
      List.forall_mem_singleton.mpr (hleaf rfl)⟩)
  have hu : plain.Distinct := .intro (by decide) (List.forall_mem_cons.mpr
    ⟨.intro (by decide) (List.forall_mem_singleton.mpr (hleaf rfl)),
      List.forall_mem_singleton.mpr (hleaf rfl)⟩)
  exact ⟨ht, hu, (compile_eq_iff ht hu).mpr rfl⟩

end Schema

end SchemaByExample
