import SchemaByExample.Proofs.Draft04.Validity
import SchemaByExample.Proofs.Schema.Outline
import SchemaByExample.Proofs.Shape.Agreement

/-! Documents against their own schemas. Where arrays of like objects are collapsed, the
schema of the first item stands for all; it accepts the others when their trees agree. -/
namespace SchemaByExample.Draft04

open Json Shape Outline

/-- Values whose own schema accepts them, by form. In an array that has no objects, the items
are never compared with the schema. The items of an array of like objects must not repeat,
and their trees must agree. In an array of unlike items, no object may have the place of a
container beside it among its names. -/
inductive Plain : Json → Prop
  | null : Plain .null
  | bool (b : Bool) : Plain (.bool b)
  | number (n : JsonNumber) : Plain (.number n)
  | string {s : String} : NumericText.isNumeric s = false → Plain (.string s)
  | object {members : List (String × Json)} :
      (∀ p ∈ members, Plain p.2) → Plain (.object members)
  | noObject {items : List Json} : (∀ v ∈ items, v.isObject = false) → Plain (.array items)
  | alike {items : List Json} : homogeneous items = true → (∀ v ∈ items, Plain v) →
      items.Pairwise (fun v w => v.same w = false) →
      (∀ v ∈ items, ∀ w ∈ items, (ofValue v).agrees (ofValue w) = true) → Plain (.array items)
  | unlike {first : List (String × Json)} {rest : List Json} :
      homogeneous (.object first :: rest) = false →
      (∀ members, .object members ∈ .object first :: rest →
        ∀ p ∈ placed 0 (.object first :: rest), p.2.isContainer = true →
          p.1 ∉ Members.keys members) →
      Plain (.array (.object first :: rest))

/-! Trees that agree have schemas that accept the same values. -/

section Agreement

variable {parts others : List (String × Json)} {a b : Bool}

theorem find?_childrenOf {k : String} {t : Shape}
    (h : Members.find? k (childrenOf b others) = some t) :
    ∃ w, (k, w) ∈ others ∧ t = ofPart b w := by
  rw [childrenOf, Members.find?_map, Option.map_eq_some_iff] at h
  obtain ⟨w, hw, ht⟩ := h
  exact ⟨w, Members.mem_of_find? hw, ht.symm⟩

/-- A part has a counterpart of the same name where the children agree. -/
theorem counterpart (h : childrenAgree (childrenOf a parts) (childrenOf b others) = true)
    {k : String} {v : Json} (hv : (k, v) ∈ parts) :
    ∃ w, (k, w) ∈ others ∧ (ofPart a v).agrees (ofPart b w) = true := by
  obtain ⟨t, ht, hagree⟩ :=
    childrenAgree_iff.mp h (k, ofPart a v) (List.mem_map.mpr ⟨(k, v), hv, rfl⟩)
  obtain ⟨w, hw, rfl⟩ := find?_childrenOf ht
  exact ⟨w, hw, hagree⟩

theorem kind?_eq_of_agrees {v w : Json} (hv : v.Distinct) (hw : w.Distinct)
    (h : (ofPart a v).agrees (ofPart b w) = true) : v.kind? = w.kind? := by
  have hk := (agrees_iff.mp h).kind
  rwa [kind_ofPart a hv, kind_ofPart b hw] at hk

theorem mem_present {k : String} :
    k ∈ present parts ↔ ∃ v, (k, v) ∈ parts ∧ v.isNull = false := by
  simp [present]

theorem mem_presentScalars {k : String} : k ∈ presentScalars parts ↔
    ∃ v, (k, v) ∈ parts ∧ v.isNull = false ∧ v.isContainer = false := by
  simp [presentScalars]

theorem presentScalars_subset_present {k : String} (h : k ∈ presentScalars parts) :
    k ∈ present parts := by
  obtain ⟨v, hv, hnull, -⟩ := mem_presentScalars.mp h
  exact mem_present.mpr ⟨v, hv, hnull⟩

section Required

variable (hp : ∀ p ∈ parts, p.2.Distinct) (ho : ∀ p ∈ others, p.2.Distinct)
  (h : childrenAgree (childrenOf a parts) (childrenOf b others) = true)

include hp ho h

theorem present_of_agree {k : String} (hk : k ∈ present parts) : k ∈ present others := by
  obtain ⟨v, hv, hnull⟩ := mem_present.mp hk
  obtain ⟨w, hw, hagree⟩ := counterpart h hv
  have hkind := kind?_eq_of_agrees (hp _ hv) (ho _ hw) hagree
  refine mem_present.mpr ⟨w, hw, ?_⟩
  rwa [isNull_eq_isNone, ← hkind, ← isNull_eq_isNone]

theorem presentScalars_of_agree {k : String} (hk : k ∈ presentScalars parts) :
    k ∈ presentScalars others := by
  obtain ⟨v, hv, hnull, hscalar⟩ := mem_presentScalars.mp hk
  obtain ⟨w, hw, hagree⟩ := counterpart h hv
  have hkind := kind?_eq_of_agrees (hp _ hv) (ho _ hw) hagree
  refine mem_presentScalars.mpr ⟨w, hw, ?_, ?_⟩
  · rwa [isNull_eq_isNone, ← hkind, ← isNull_eq_isNone]
  · rwa [← isContainerKind_kind?, ← hkind, isContainerKind_kind?]

end Required

/-- The description of members passes from one list of parts to another when each part's
schema accepts what its counterpart's does, and no further names are required. -/
theorem admits_ofMembers_of_agree {required more : List String} {x : Json}
    (h : childrenAgree (childrenOf a parts) (childrenOf b others) = true)
    (ih : ∀ p ∈ parts, ∀ q ∈ others, (ofPart a p.2).agrees (ofPart b q.2) = true → ∀ y,
      accepts (schema b q.2).document y = true → accepts (schema a p.2).document y = true)
    (hr : ∀ k ∈ required, k ∈ more)
    (hx : Admits (Schema.ofMembers (properties b others) more) x) :
    Admits (Schema.ofMembers (properties a parts) required) x := by
  obtain ⟨hproperties, hrequired⟩ := admits_ofMembers_iff.mp hx
  refine admits_ofMembers_iff.mpr ⟨?_, fun members hm k hk => hrequired members hm k (hr k hk)⟩
  intro p hp m hm hname
  obtain ⟨⟨k, v⟩, hv, rfl⟩ := List.mem_map.mp hp
  obtain ⟨w, hw, hagree⟩ := counterpart h hv
  exact ih _ hv _ hw hagree m.2
    (hproperties (k, schema b w) (List.mem_map.mpr ⟨(k, w), hw, rfl⟩) m hm hname)

theorem schema_eq_of_agrees {v w : Json} (hv : v.isContainer = false)
    (hw : w.isContainer = false) (h : (ofPart a v).agrees (ofPart b w) = true) :
    schema a v = schema b w := by
  rw [ofPart_scalar a hv, ofPart_scalar b hw] at h
  rw [← ofShape_scalar a hv, ← ofShape_scalar b hw, ofPart_scalar a hv, ofPart_scalar b hw,
    eq_of_agrees h rfl rfl]

/-- If the trees of two values agree, what the schema of one accepts the schema of the other
accepts. -/
theorem accepts_of_agrees {v w : Json} (hv : v.Distinct) (hw : w.Distinct)
    (h : (ofPart a v).agrees (ofPart b w) = true) {x : Json}
    (hx : accepts (schema b w).document x = true) : accepts (schema a v).document x = true := by
  induction v using parts_induction generalizing w a b x with
  | step v ih =>
    have hkind := kind?_eq_of_agrees hv hw h
    have hag := agrees_iff.mp h
    cases v with
    | object members =>
      obtain ⟨others, rfl⟩ := object_of_kind hkind.symm
      rw [ofPart_object, ofPart_object] at hag
      have hc := childrenAgree_iff.mpr hag.children
      rw [accepts_document, schema_object, admits_ofObject_iff] at hx ⊢
      exact ⟨hx.1, admits_ofMembers_of_agree hc
        (fun p hp q hq hpq y => ih p hp (hv.member hp) (hw.member hq) hpq)
        (fun k => present_of_agree (fun p => hv.member) (fun p => hw.member) hc) hx.2⟩
    | array items =>
      obtain ⟨others, rfl⟩ := array_of_kind hkind.symm
      rw [ofPart_array a hv, ofPart_array b hw] at hag
      have hc := childrenAgree_iff.mpr hag.children
      have hm := hag.minItems
      have hu := hag.uniqueItems
      rw [accepts_document, schema_array, admits_array_iff] at hx ⊢
      obtain ⟨values, rfl, hmin, hunique, hitems⟩ := hx
      refine ⟨values, rfl, fun n hn => hmin n (hm.symm.trans hn),
        fun h => hunique (hu.symm.trans h), fun x hx => ?_⟩
      exact admits_ofMembers_of_agree hc
        (fun p hp q hq hpq y => ih p hp (hv.part hp) (hw.part hq) hpq)
        (fun k => presentScalars_of_agree (fun p => hv.part) (fun p => hw.part) hc) (hitems x hx)
    | _ =>
      have hscalar : w.isContainer = false := by
        rw [← isContainerKind_kind?, ← hkind]
        exact isContainerKind_kind? _
      rw [schema_eq_of_agrees rfl hscalar h]
      exact hx

end Agreement

theorem admits_kind {k : Kind} {v : Json} (h : k.name = typeName v) :
    Admits { kind := some k } v := by
  constructor
  case kind => rintro _ ⟨rfl⟩; exact h
  all_goals simp

theorem admits_text {s : String} (h : NumericText.isNumeric s = false) :
    Admits (text s) (.string s) := by
  rw [text, h]
  constructor
  case kind => rintro _ ⟨rfl⟩; rfl
  case minLength =>
    rintro n hn _ ⟨rfl⟩
    by_cases hs : s = ""
    · simp [hs] at hn
    · obtain rfl : 1 = n := by simpa [hs] using hn
      exact Nat.one_le_iff_ne_zero.mpr (by simpa using hs)
  all_goals simp

/-- In the object's own schema every member meets the schema of its name. -/
theorem admits_object {members : List (String × Json)} (hk : (Members.keys members).Nodup)
    (h : ∀ p ∈ members, Admits (schema false p.2) p.2) :
    Admits (schema false (.object members)) (.object members) := by
  rw [schema_object, admits_ofObject_iff, admits_ofMembers_iff]
  refine ⟨rfl, ?_, ?_⟩
  · intro p hp m hm hname
    obtain ⟨⟨k, v⟩, hv, rfl⟩ := List.mem_map.mp hp
    obtain ⟨k', w⟩ := m
    obtain rfl : k' = k := hname
    have hvw := (Members.find?_of_mem hk hv).symm.trans (Members.find?_of_mem hk hm)
    obtain rfl := Option.some.inj hvw
    exact accepts_document.mpr (h _ hv)
  · rintro _ ⟨rfl⟩ k hkr
    obtain ⟨v, hv, -⟩ := mem_present.mp hkr
    exact List.mem_map.mpr ⟨_, hv, rfl⟩

/-- An array that keeps its items apart has no marks, and its items are only described. -/
theorem admits_apart {items : List Json} (hh : homogeneous items = false)
    (h : ∀ w ∈ items, Admits (Schema.ofMembers (properties true (itemParts items))
      (presentScalars (itemParts items))) w) :
    Admits (schema false (.array items)) (.array items) := by
  rw [schema_array, admits_array_iff, hh]
  exact ⟨items, rfl, by simp, by simp, h⟩

theorem admits_ofMembers_of_not_object {properties : List (String × Schema)}
    {required : List String} {v : Json} (h : v.isObject = false) :
    Admits (Schema.ofMembers properties required) v := by
  rw [admits_ofMembers_iff]
  cases v with
  | object members => simp [isObject] at h
  | _ => simp [membersOf]

theorem not_homogeneous {items : List Json} (h : ∀ v ∈ items, v.isObject = false) :
    homogeneous items = false := by
  cases items with
  | nil => rfl
  | cons v rest =>
    cases v with
    | object first => simpa [isObject] using h (.object first) (by simp)
    | _ => rfl

theorem admits_unlike {first : List (String × Json)} {rest : List Json}
    (hh : homogeneous (.object first :: rest) = false)
    (h : ∀ members, .object members ∈ .object first :: rest →
      ∀ p ∈ placed 0 (.object first :: rest), p.2.isContainer = true →
        p.1 ∉ Members.keys members) :
    Admits (schema false (.array (.object first :: rest))) (.array (.object first :: rest)) := by
  have hparts : itemParts (.object first :: rest) =
      (placed 0 (.object first :: rest)).filter fun p => p.2.isContainer := by
    simp [itemParts, hh]
  refine admits_apart hh fun w hw => ?_
  cases w with
  | object members =>
    rw [admits_ofMembers_iff, hparts]
    constructor
    · intro p hp m hm hname
      obtain ⟨q, hq, rfl⟩ := List.mem_map.mp hp
      obtain ⟨hplaced, hcontainer⟩ := List.mem_filter.mp hq
      exact absurd (List.mem_map.mpr ⟨m, hm, hname⟩) (h members hw q hplaced hcontainer)
    · rintro _ ⟨rfl⟩ k hk
      obtain ⟨v, hv, -, hscalar⟩ := mem_presentScalars.mp hk
      simp [hscalar] at hv
  | _ => exact admits_ofMembers_of_not_object rfl

/-- The schema of the first item accepts like items whose trees agree with its tree. -/
theorem admits_alike {items : List Json} (hd : (Json.array items).Distinct)
    (hh : homogeneous items = true) (hw : items.Pairwise fun v w => v.same w = false)
    (ha : ∀ v ∈ items, ∀ w ∈ items, (ofValue v).agrees (ofValue w) = true)
    (h : ∀ w ∈ items, Admits (schema false w) w) :
    Admits (schema false (.array items)) (.array items) := by
  cases items with
  | nil => simp [homogeneous] at hh
  | cons v rest =>
    cases v with
    | object first =>
      have hparts : itemParts (.object first :: rest) = first := by simp [itemParts, hh]
      rw [schema_array, admits_array_iff, hh, hparts]
      refine ⟨_, rfl, ?_, fun _ => hw, fun w hw => ?_⟩
      · rintro n hn
        obtain rfl : 1 = n := by simpa using hn
        exact Nat.succ_pos _
      · -- the first item's own schema accepts `w`, and it says more than that of the items
        have hagree : (ofPart false (.object first)).agrees (ofPart false w) = true :=
          ha (.object first) (by simp) w hw
        have hfirst := accepts_of_agrees (hd.item (by simp)) (hd.item hw) hagree
          (accepts_document.mpr (h w hw))
        rw [accepts_document, schema_object, admits_ofObject_iff, admits_ofMembers_iff] at hfirst
        exact admits_ofMembers_iff.mpr ⟨hfirst.2.1, fun members hm k hk =>
          hfirst.2.2 members hm k (presentScalars_subset_present hk)⟩
    | _ => simp [homogeneous] at hh

/-- The schema of a plain value below the root accepts it. -/
theorem admits_own {v : Json} (hv : Plain v) (hd : v.Distinct) : Admits (schema false v) v := by
  induction hv with
  | null =>
    rw [schema.eq_def]
    constructor <;> simp
  | bool b =>
    rw [schema.eq_def]
    exact admits_kind rfl
  | number n =>
    rw [schema.eq_def]
    exact admits_kind rfl
  | string hs =>
    rw [schema.eq_def]
    exact admits_text hs
  | object hm ih => exact admits_object hd.keys fun p hp => ih p hp (hd.member hp)
  | noObject hi =>
    exact admits_apart (not_homogeneous hi) fun w hw => admits_ofMembers_of_not_object (hi w hw)
  | alike hh hp hw ha ih => exact admits_alike hd hh hw ha fun w hw => ih w hw (hd.item hw)
  | unlike hh hk => exact admits_unlike hh hk

/-- A plain document that is an object is valid against the schema inferred from it. -/
theorem accepts_infer {members : List (String × Json)} (hv : Plain (.object members))
    (hd : (Json.object members).Distinct) :
    accepts (Schema.inferJson (.object members)) (.object members) = true := by
  have h := admits_own hv hd
  rw [Schema.inferJson, Schema.infer, Outline.compile_ofDocument _ hd, accepts_document]
  rw [schema_object] at h
  exact admits_asDocument_iff.mpr h

def rows : Json := .array [
  .object [("flag", .bool true), ("list", .array [.string "7", .array [.object []]])],
  .object [("list", .array [.string "8", .array [.object []]]), ("flag", .bool false)]]

def mixed : Json := .array [.object [("k", .string "7")], .bool true, .array [.null]]

theorem plain_rows : Plain rows := by
  have hlist (s : String) : Plain (.array [.string s, .array [.object []]]) :=
    .noObject (by simp [isObject])
  refine .alike (by decide) ?_ (by decide +kernel) (by decide +kernel)
  rw [List.forall_mem_cons, List.forall_mem_singleton]
  constructor
  · exact .object (by simp [Plain.bool, hlist])
  · exact .object (by simp [Plain.bool, hlist])

theorem plain_mixed : Plain mixed := by
  refine .unlike (by decide) ?_
  simp only [placed, isContainer, Members.keys, List.mem_cons, List.not_mem_nil, or_false,
    object.injEq, reduceCtorEq, forall_eq, forall_eq_or_imp, List.map_cons, List.map_nil]
  decide

theorem accepts_infer_rows :
    (Json.object [("rows", rows), ("mixed", mixed), ("none", .null)]).Distinct ∧
      Plain (.object [("rows", rows), ("mixed", mixed), ("none", .null)]) ∧
      accepts (Schema.inferJson (.object [("rows", rows), ("mixed", mixed), ("none", .null)]))
        (.object [("rows", rows), ("mixed", mixed), ("none", .null)]) = true := by
  have hd : (Json.object [("rows", rows), ("mixed", mixed), ("none", .null)]).Distinct := by decide
  have hv : Plain (.object [("rows", rows), ("mixed", mixed), ("none", .null)]) :=
    .object (by simp [plain_rows, plain_mixed, Plain.null])
  exact ⟨hd, hv, accepts_infer hv hd⟩

/-- A text that counts as a number is a text all the same. -/
example : accepts (Schema.inferJson (.object [("k", .string "7")]))
    (.object [("k", .string "7")]) = false := by decide +kernel

end SchemaByExample.Draft04
