import SchemaByExample.Proofs.Schema.Forms
import SchemaByExample.Proofs.Schema.RoundTrip

/-! How deep schemas nest. An array in a document costs three containers of its schema, an
object two, and the innermost values one. So what is inferred from a document is read back as
long as the document does not nest more than 42 containers, and not always beyond. -/
namespace SchemaByExample

open Json Outline

namespace Json

/-- A part of a container nests less than the container. -/
theorem depth_lt_of_mem_parts {v : Json} {p : String × Json} (h : p ∈ v.parts) :
    p.2.depth < v.depth := by
  have hmember {members : List (String × Json)} (hp : p ∈ members) :
      p.2.depth < (object members).depth :=
    Nat.lt_succ_of_le (depthMembers_le_iff.mp (Nat.le_refl _) p hp)
  have hitem {items : List Json} {w : Json} (hw : w ∈ items) : w.depth < (array items).depth :=
    Nat.lt_succ_of_le (depthItems_le_iff.mp (Nat.le_refl _) w hw)
  cases v with
  | object members => exact hmember h
  | array items =>
    obtain hp | ⟨first, rest, rfl, hp⟩ := mem_itemParts h
    · exact hitem hp
    · exact Nat.lt_trans (hmember hp) (hitem List.mem_cons_self)
  | _ => simp [parts] at h

end Json

namespace Schema

theorem mem_written_iff {s : Schema} {fields : List Field} {p : String × Json} :
    p ∈ s.written fields ↔ ∃ f ∈ fields, s.value? f = some p.2 ∧ p.1 = f.name := by
  obtain ⟨k, v⟩ := p
  simp only [written, List.mem_filterMap, Option.map_eq_some_iff, Prod.mk.injEq]
  constructor
  · rintro ⟨f, hf, w, hw, rfl, rfl⟩
    exact ⟨f, hf, hw, rfl⟩
  · rintro ⟨f, hf, hv, rfl⟩
    exact ⟨f, hf, v, hv, rfl, rfl⟩

theorem depth_toJson_le_iff {s : Schema} {position : Position} {n : Nat} :
    (s.toJson position).depth ≤ n + 1 ↔ ∀ f v, s.value? f = some v → v.depth ≤ n := by
  rw [toJson_eq_written, depth_object_le_succ]
  constructor
  · intro h f v hv
    exact h (f.name, v) (mem_written_iff.mpr ⟨f, mem_fieldOrder position f, hv, rfl⟩)
  · intro h p hp
    obtain ⟨f, -, hv, -⟩ := mem_written_iff.mp hp
    exact h f p.2 hv

theorem depth_toJson_pos (s : Schema) (position : Position) : 0 < (s.toJson position).depth := by
  rw [toJson_eq_written, depth]
  exact Nat.succ_pos _

/-- The order of the members does not matter. -/
theorem depth_toJson (s : Schema) (position : Position) :
    (s.toJson position).depth = s.document.depth := by
  have hle (p q : Position) : (s.toJson p).depth ≤ (s.toJson q).depth := by
    obtain ⟨n, hn⟩ := Nat.exists_eq_add_one_of_ne_zero (Nat.ne_of_gt (depth_toJson_pos s q))
    rw [hn]
    exact depth_toJson_le_iff.mpr (depth_toJson_le_iff.mp (Nat.le_of_eq hn))
  exact Nat.le_antisymm (hle _ _) (hle _ _)

theorem depth_object_le_iff {members : List (String × Json)} {n : Nat} :
    (object members).depth ≤ n ↔ 0 < n ∧ ∀ p ∈ members, p.2.depth < n := by
  cases n with
  | zero => simp [depth]
  | succ n =>
    rw [depth_object_le_succ]
    exact ⟨fun h => ⟨Nat.succ_pos n, fun p hp => Nat.lt_succ_of_le (h p hp)⟩,
      fun h p hp => Nat.le_of_lt_succ (h.2 p hp)⟩

theorem depth_names_le_iff {names : List String} {n : Nat} :
    (array (names.map .string)).depth ≤ n ↔ 0 < n := by
  cases n with
  | zero => simp [depth]
  | succ n =>
    rw [depth_array_le_succ, List.forall_mem_map]
    simp [depth]

/-- Of the fields only these three hold containers. -/
theorem depth_document_le_iff {s : Schema} {n : Nat} : s.document.depth ≤ n + 1 ↔
    (∀ i, s.items = some i → i.document.depth ≤ n) ∧
    (∀ ps, s.properties = some ps → 0 < n ∧ ∀ p ∈ ps, p.2.document.depth < n) ∧
    (∀ names, s.required = some names → 0 < n) := by
  rw [document, depth_toJson_le_iff]
  constructor
  · intro h
    refine ⟨fun i hi => ?_, fun ps hps => ?_, fun names hnames => ?_⟩
    · rw [← depth_toJson i .items]
      exact h .items _ (by rw [value?, hi, Option.map_some])
    · have hobject := h .properties _ (by rw [value?, hps, Option.map_some])
      rwa [depth_object_le_iff, List.forall_mem_map] at hobject
    · exact depth_names_le_iff.mp (h .required _ (by rw [value?, hnames, Option.map_some]))
  · rintro ⟨hi, hp, hr⟩ f v hv
    cases f with
    | items =>
      obtain ⟨i, his, rfl⟩ := Option.map_eq_some_iff.mp hv
      rw [depth_toJson]
      exact hi i his
    | properties =>
      obtain ⟨ps, hps, rfl⟩ := Option.map_eq_some_iff.mp hv
      rw [depth_object_le_iff, List.forall_mem_map]
      exact hp ps hps
    | required =>
      obtain ⟨names, hnames, rfl⟩ := Option.map_eq_some_iff.mp hv
      exact depth_names_le_iff.mpr (hr names hnames)
    | _ =>
      obtain ⟨_, -, rfl⟩ := Option.map_eq_some_iff.mp hv
      exact Nat.zero_le n

theorem depth_of_properties {s : Schema} {ps : List (String × Schema)} {names : List String}
    (hi : s.items = none) (hp : s.properties = some ps) (hr : s.required = some names) {n : Nat} :
    s.document.depth ≤ n + 1 ↔ 0 < n ∧ ∀ p ∈ ps, p.2.document.depth < n := by
  rw [depth_document_le_iff, hi, hp, hr]
  constructor
  · rintro ⟨-, h, -⟩
    exact h ps rfl
  · intro h
    refine ⟨fun _ hi => ?_, fun _ hps => Option.some.inj hps ▸ h, fun _ _ => h.1⟩
    cases hi

theorem depth_of_items {s i : Schema} (hi : s.items = some i) (hp : s.properties = none)
    (hr : s.required = none) {n : Nat} :
    s.document.depth ≤ n + 1 ↔ i.document.depth ≤ n := by
  rw [depth_document_le_iff, hi, hp, hr]
  constructor
  · rintro ⟨h, -, -⟩
    exact h i rfl
  · intro h
    refine ⟨fun _ hi => Option.some.inj hi ▸ h, fun _ hps => ?_, fun _ hnames => ?_⟩
    · cases hps
    · cases hnames

end Schema

namespace Outline

open Schema

theorem depth_schema_scalar {v : Json} (h : v.isContainer = false) (apart : Bool) :
    (schema apart v).document.depth = 1 := by
  rw [schema.eq_def]
  cases v with
  | array items => cases h
  | object members => cases h
  | string s =>
    simp only [text]
    split
    · rfl
    · split <;> rfl
  | _ => rfl

/-- The properties of a container's schema, if those of its parts keep to the bound. -/
theorem depth_properties_lt {v : Json} {apart : Bool}
    (h : ∀ p ∈ v.parts, (schema apart p.2).document.depth ≤ 3 * p.2.depth + 1) :
    ∀ p ∈ properties apart v.parts, p.2.document.depth + 1 < 3 * v.depth := by
  rw [properties, List.forall_mem_map]
  intro p hp
  change (schema apart p.2).document.depth + 1 < _
  have hschema := h p hp
  have hdepth := depth_lt_of_mem_parts hp
  omega

theorem depth_schema_le (v : Json) (apart : Bool) :
    (schema apart v).document.depth ≤ 3 * v.depth + 1 := by
  induction v using Json.parts_induction generalizing apart with
  | step v ih =>
    cases v with
    | object members =>
      have hp := depth_properties_lt fun p hp => ih p hp false
      have hpos : 0 < (Json.object members).depth := Nat.succ_pos _
      rw [schema_object, depth_of_properties rfl rfl rfl]
      exact ⟨by omega, fun p h => Nat.lt_of_succ_lt (hp p h)⟩
    | array items =>
      have hp := depth_properties_lt fun p hp => ih p hp (!homogeneous items)
      obtain ⟨n, hn⟩ : ∃ n, 3 * (Json.array items).depth = n + 2 :=
        ⟨3 * depthItems items + 1, by rw [depth]; omega⟩
      rw [schema_array, depth_of_items rfl rfl rfl]
      rw [hn] at hp ⊢
      rw [depth_of_properties rfl rfl rfl]
      exact ⟨Nat.succ_pos n, fun p h => Nat.lt_of_succ_lt_succ (hp p h)⟩
    | _ => exact Nat.le_of_eq (depth_schema_scalar rfl apart)

/-- Only the schema of a document without containers nests more than three for each of them
and one. -/
theorem depth_document_le (v : Json) :
    (document v).document.depth ≤ max 2 (3 * v.depth + 1) := by
  have hp (apart : Bool) := depth_properties_lt fun p (_ : p ∈ v.parts) =>
    depth_schema_le p.2 apart
  cases v with
  | object members =>
    have hpos : 0 < (Json.object members).depth := Nat.succ_pos _
    refine Nat.le_trans ?_ (Nat.le_max_right _ _)
    rw [document, depth_of_properties rfl rfl rfl]
    · exact ⟨by omega, fun p h => Nat.lt_of_succ_lt (hp false p h)⟩
    · simp
  | array items =>
    obtain ⟨n, hn⟩ : ∃ n, 3 * (Json.array items).depth = n + 2 :=
      ⟨3 * depthItems items + 1, by rw [depth]; omega⟩
    refine Nat.le_trans ?_ (Nat.le_max_right _ _)
    have hp := hp (!homogeneous items)
    rw [hn] at hp ⊢
    rw [document, depth_of_items rfl rfl rfl, depth_of_properties rfl rfl rfl]
    exact ⟨Nat.succ_pos n, fun p h => Nat.lt_of_succ_lt_succ (hp p h)⟩
  | _ => exact Nat.le_max_left _ _

/-! The bound is met by arrays in arrays. -/

def nest : Nat → Json
  | 0 => .null
  | n + 1 => .array [nest n]

theorem depth_nest (n : Nat) : (nest n).depth = n := by
  induction n with
  | zero => rfl
  | succ n ih => rw [nest, depth, depthItems, depthItems, ih, Nat.max_zero]

theorem distinct_nest (n : Nat) : (nest n).Distinct := by
  induction n with
  | zero => trivial
  | succ n ih => exact ⟨ih, trivial⟩

theorem homogeneous_nest (n : Nat) : homogeneous [nest n] = false := by
  cases n <;> rfl

theorem itemParts_nest (n : Nat) : itemParts [nest n] = [("0", nest n)] := by
  cases n <;> rfl

theorem lt_depth_schema_nest (n : Nat) (apart : Bool) :
    3 * n < (schema apart (nest n)).document.depth := by
  induction n generalizing apart with
  | zero => exact depth_toJson_pos _ _
  | succ n ih =>
    refine Nat.lt_of_not_le fun h => ?_
    have hn : 3 * (n + 1) = 3 * n + 1 + 1 + 1 := by omega
    rw [nest, schema_array, hn, depth_of_items rfl rfl rfl, depth_of_properties rfl rfl rfl,
      homogeneous_nest, itemParts_nest] at h
    have hlt := h.2 ("0", schema true (nest n)) (by simp [properties])
    have hlow := ih true
    simp only at hlt
    omega

theorem depth_document_nest (n : Nat) :
    (document (nest n)).document.depth = max 2 (3 * n + 1) := by
  have hle := depth_document_le (nest n)
  rw [depth_nest] at hle
  refine Nat.le_antisymm hle ?_
  cases n with
  | zero => exact Nat.le_refl _
  | succ n =>
    refine Nat.le_of_not_lt fun h => ?_
    have hlt : (document (nest (n + 1))).document.depth ≤ 3 * n + 1 + 1 + 1 := by omega
    rw [nest, document, depth_of_items rfl rfl rfl, depth_of_properties rfl rfl rfl,
      homogeneous_nest, itemParts_nest] at hlt
    have hchild := hlt.2 ("0", schema true (nest n)) (by simp [properties])
    have hlow := lt_depth_schema_nest n true
    simp only at hchild
    omega

end Outline

namespace Schema

theorem distinct_infer {v : Json} (hd : v.Distinct) : (infer v).Distinct :=
  distinct_compile (Shape.wellFormed_node hd .root).distinct

/-- Only what stands behind a whole value is reported without a path. -/
theorem path_of_readWhole {α : Type} {value : Bytes → Except Failure (α × Bytes)} {bytes : Bytes}
    {e : ReadError} (h : readWhole value bytes = .error e) (hc : e.cause ≠ .trailingCharacters) :
    ∃ path, e.path = some path := by
  rw [readWhole] at h
  split at h
  · cases h
    exact ⟨_, rfl⟩
  · split at h
    · cases h
    · cases h
      exact absurd rfl hc

def depthMessage (path : List Segment) (place : Place) : String :=
  "invalid input: " ++ ("at JSON path " ++ Path.text path ++ " → " ++
    ("recursion limit exceeded" ++ " at line " ++ toString place.line ++
      " column " ++ toString place.column))

def TooDeep (text : String) : Prop :=
  ∃ e path, ofText text = .error e ∧ (InputError.text e).message = depthMessage path e.place

theorem tooDeep_render {sp : Spacing} (hsp : sp.Blank) {s : Schema} (hd : s.Distinct)
    (h : maxDepth < s.document.depth) : TooDeep (String.ofList (render sp 0 s.document)) := by
  obtain ⟨e, he, hc⟩ := (ofText_render hsp hd).2 h
  obtain ⟨path, hpath⟩ := path_of_readWhole he (by simp [hc])
  obtain ⟨cause, path', place⟩ := e
  subst hc hpath
  exact ⟨_, path, he, rfl⟩

/-- What is inferred from a document is read back from both layouts, unless it nests more than
127 containers. Then both are refused for that. It nests at most three containers for each that
the document nests, and one; so it is read back if the document nests no more than 42, but for
some document that nests 43 it is refused. -/
theorem ofText_infer (v : Json) (hd : v.Distinct) :
    ((infer v).document.depth ≤ 127 →
      ofText (inferJson v).compact = .ok (infer v) ∧
        ofText (inferJson v).pretty = .ok (infer v)) ∧
    (128 ≤ (infer v).document.depth →
      TooDeep (inferJson v).compact ∧ TooDeep (inferJson v).pretty) ∧
    (infer v).document.depth ≤ max 2 (3 * v.depth + 1) ∧
    (v.depth ≤ 42 →
      ofText (inferJson v).compact = .ok (infer v) ∧
        ofText (inferJson v).pretty = .ok (infer v)) ∧
    (∀ n, ∃ w : Json, w.Distinct ∧ w.depth = n ∧
      (infer w).document.depth = max 2 (3 * n + 1)) ∧
    ∃ w : Json, w.Distinct ∧ w.depth = 43 ∧
      TooDeep (inferJson w).compact ∧ TooDeep (inferJson w).pretty := by
  have hread {w : Json} (hw : w.Distinct) (h : (infer w).document.depth ≤ 127) :
      ofText (inferJson w).compact = .ok (infer w) ∧ ofText (inferJson w).pretty = .ok (infer w) :=
    ⟨(ofText_render blank_compact (distinct_infer hw)).1 h,
      (ofText_render blank_pretty (distinct_infer hw)).1 h⟩
  have hrefused {w : Json} (hw : w.Distinct) (h : 128 ≤ (infer w).document.depth) :
      TooDeep (inferJson w).compact ∧ TooDeep (inferJson w).pretty :=
    ⟨tooDeep_render blank_compact (distinct_infer hw) h,
      tooDeep_render blank_pretty (distinct_infer hw) h⟩
  have hle : (infer v).document.depth ≤ max 2 (3 * v.depth + 1) := by
    rw [infer, compile_ofDocument v hd]
    exact depth_document_le v
  have hnest (n : Nat) : (infer (nest n)).document.depth = max 2 (3 * n + 1) := by
    rw [infer, compile_ofDocument _ (distinct_nest n)]
    exact depth_document_nest n
  have hdeep : 128 ≤ (infer (nest 43)).document.depth := by
    rw [hnest 43]
    decide
  refine ⟨hread hd, hrefused hd, hle, fun h => hread hd (by omega), fun n => ?_, ?_⟩
  · exact ⟨nest n, distinct_nest n, depth_nest n, hnest n⟩
  · exact ⟨nest 43, distinct_nest 43, depth_nest 43, hrefused (distinct_nest 43) hdeep⟩

/-- Arrays up to the limit, and rows with rows in them. -/
theorem ofText_infer_nest : (nest 42).Distinct ∧ nested.Distinct ∧
    ofText (inferJson (nest 42)).pretty = .ok (infer (nest 42)) ∧
    ofText (inferJson nested).compact = .ok (infer nested) := by
  have hn : (nest 42).Distinct := distinct_nest 42
  have hd : nested.Distinct := by decide
  obtain ⟨-, -, -, hdeep, -⟩ := ofText_infer (nest 42) hn
  obtain ⟨-, -, -, hflat, -⟩ := ofText_infer nested hd
  exact ⟨hn, hd, (hdeep (Nat.le_of_eq (depth_nest 42))).2, (hflat (by decide)).1⟩

end Schema

end SchemaByExample
