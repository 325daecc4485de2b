import SchemaByExample.Infer
import SchemaByExample.Proofs.Json.Resemblance
import SchemaByExample.Proofs.Shape.Children

/-! The contents of scalars do not reach the schema. An array does compare the texts of its
items, but only to see whether all are objects with one set of names; for that the rinds of
the items are enough, and values that resemble each other have one rind. -/
namespace SchemaByExample.Shape

open Json Similarity

/-- What of an item its array looks at. -/
inductive Rind where
  | object (names : List String)
  | array (empty : Bool)
  | scalar
  deriving DecidableEq

def rind : Json → Rind
  | .object members => .object (Members.keys members)
  | .array items => .array items.isEmpty
  | _ => .scalar

theorem rind_of_scalar {v : Json} (h : v.isContainer = false) : rind v = .scalar := by
  cases v with
  | array items => simp [isContainer] at h
  | object members => simp [isContainer] at h
  | _ => rfl

theorem rind_eq_object {v : Json} {names : List String} (h : rind v = .object names) :
    ∃ members, v = .object members ∧ Members.keys members = names := by
  cases v with
  | object members => exact ⟨members, rfl, by simpa [rind] using h⟩
  | _ => simp [rind] at h

theorem isObject_of_rind {v w : Json} (h : rind v = rind w) : v.isObject = w.isObject := by
  cases v <;> cases w <;> simp_all [rind, isObject]

/-- What passes on from equal rinds, item by item, holds of lists with equal rinds. -/
theorem rinds_induction {motive : (items others : List Json) →
      items.map rind = others.map rind → Prop}
    (nil : motive [] [] rfl)
    (cons : ∀ {v w items others} (hv : rind v = rind w) (h : items.map rind = others.map rind),
      motive items others h →
        motive (v :: items) (w :: others) (by simp only [List.map_cons, hv, h]))
    {items others : List Json} (h : items.map rind = others.map rind) :
    motive items others h := by
  induction items generalizing others with
  | nil =>
    obtain rfl : others = [] := by simpa using h.symm
    exact nil
  | cons v items ih =>
    cases others with
    | nil => simp at h
    | cons w others =>
      obtain ⟨hv, hrest⟩ := List.cons.inj h
      exact cons hv hrest (ih hrest)

/-- Whether an item has the signature of an object is told by its rind. -/
theorem signature_beq_of_rind {v w : Json} {ms ns : List (String × Json)} (h : rind v = rind w)
    (hk : Members.keys ms = Members.keys ns) :
    (signature v == signature (.object ms)) = (signature w == signature (.object ns)) := by
  have hs : signature (.object ms) = signature (.object ns) := by simp only [signature, hk]
  cases ho : w.isObject with
  | false =>
    have hv : signature v ≠ signature (.object ms) :=
      signature_object_ne ((isObject_of_rind h).trans ho)
    have hw : signature w ≠ signature (.object ns) := signature_object_ne ho
    rw [beq_eq_false_iff_ne.mpr hv, beq_eq_false_iff_ne.mpr hw]
  | true =>
    obtain ⟨members, rfl⟩ := exists_of_isObject ho
    obtain ⟨others, rfl, ho⟩ := rind_eq_object h
    simp only [signature, ho, hk]

theorem all_signature_of_rind {items others : List Json} {ms ns : List (String × Json)}
    (h : items.map rind = others.map rind) (hk : Members.keys ms = Members.keys ns) :
    items.all (fun v => signature v == signature (.object ms)) =
      others.all (fun v => signature v == signature (.object ns)) := by
  induction h using rinds_induction with
  | nil => rfl
  | cons hv _ ih => rw [List.all_cons, List.all_cons, signature_beq_of_rind hv hk, ih]

theorem selectFrom_of_rind (i widest : Nat) (selected : Option Nat) {items others : List Json}
    (h : items.map rind = others.map rind) :
    selectFrom i widest selected items = selectFrom i widest selected others := by
  induction h using rinds_induction generalizing i widest selected with
  | nil => rfl
  | @cons v w items others hv _ ih =>
    cases w with
    | object ns =>
      obtain ⟨ms, rfl, hk⟩ := rind_eq_object hv
      have hlen : ms.length = ns.length := by simpa [Members.keys] using congrArg List.length hk
      simp only [selectFrom, hlen, ih]
    | _ =>
      cases v with
      | object ms => simp [rind] at hv
      | _ => exact ih _ _ _

theorem element?_of_rind (primitives : Primitives) {v w : Json} (s : Shape)
    (h : rind v = rind w) : element? primitives v s = element? primitives w s := by
  cases w with
  | object ns =>
    obtain ⟨ms, rfl, hk⟩ := rind_eq_object h
    have he : ms.isEmpty = ns.isEmpty := by
      cases ms <;> cases ns <;> simp_all [Members.keys]
    simp only [element?, he]
  | array others =>
    cases v with
    | array items =>
      have he : items.isEmpty = others.isEmpty := by simpa [rind] using h
      simp only [element?, he]
    | _ => simp [rind] at h
  | _ =>
    cases v with
    | array items => simp [rind] at h
    | object ms => simp [rind] at h
    | _ => rfl

theorem elements_of_rind (primitives : Primitives) (i : Nat) {items others : List Json}
    (shapes : List Shape) (h : items.map rind = others.map rind) :
    elements primitives i (items.zip shapes) = elements primitives i (others.zip shapes) := by
  induction h using rinds_induction generalizing i shapes with
  | nil => rfl
  | cons hv _ ih =>
    cases shapes with
    | nil => rfl
    | cons s shapes =>
      simp only [List.zip_cons_cons, elements, element?_of_rind primitives s hv, ih]

/-- An array sees of its items their rinds and their shapes. -/
theorem ofItems_of_rind {items others : List Json} (shapes : List Shape)
    (h : items.map rind = others.map rind) : ofItems items shapes = ofItems others shapes := by
  have hskip := elements_of_rind .skip 0 shapes h
  have hkeep := elements_of_rind .keep 0 shapes h
  have hr := selectFrom_of_rind 0 0 none h
  cases h using rinds_induction with
  | nil => rfl
  | @cons v w items others hv hrest =>
    cases w with
    | object ns =>
      -- only an array that begins with an object compares signatures
      obtain ⟨ms, rfl, hk⟩ := rind_eq_object hv
      simp only [ofItems, alike, all_signature_of_rind hrest hk, representative, hr, hskip]
      rfl
    | _ =>
      cases v with
      | object ms => simp [rind] at hv
      | _ => simp only [ofItems, hkeep]

theorem ofPrimitive_of_sameClass {v w : Json} (h : SameClass v w) :
    ofPrimitive v = ofPrimitive w := by
  by_cases hk : v.kind? = some .string
  · obtain ⟨s, rfl⟩ := text_of_kind hk
    obtain ⟨t, rfl⟩ := text_of_kind (h.kind ▸ hk)
    have he : s.isEmpty = t.isEmpty := by
      rw [Bool.eq_iff_iff]
      simpa using h.empty hk
    rw [ofPrimitive_of_kind_eq hk, ofPrimitive_of_kind_eq (h.kind ▸ hk), he]
  · rw [ofPrimitive_of_kind_ne hk, ofPrimitive_of_kind_ne (h.kind ▸ hk), isNull_eq_isNone,
      isNull_eq_isNone, h.kind]

theorem keys_of_resemble {members others : List (String × Json)}
    (h : ResembleMembers members others) : Members.keys members = Members.keys others := by
  induction members generalizing others with
  | nil => cases h; rfl
  | cons p members ih =>
    cases h with
    | cons k hv hrest => exact congrArg (k :: ·) (ih hrest)

theorem rind_of_resembles {v w : Json} (h : Resembles v w) : rind v = rind w := by
  cases h with
  | scalar h => rw [rind_of_scalar h.left, rind_of_scalar h.right]
  | array h => cases h <;> rfl
  | object h => exact congrArg Rind.object (keys_of_resemble h)

theorem rinds_of_resemble {items others : List Json} (h : ResembleItems items others) :
    items.map rind = others.map rind := by
  induction items generalizing others with
  | nil => cases h; rfl
  | cons v items ih =>
    cases h with
    | cons hv hrest => rw [List.map_cons, List.map_cons, rind_of_resembles hv, ih hrest]

mutual

/-- Values that resemble each other have one tree. -/
theorem ofValue_of_resembles {v w : Json} : Resembles v w → ofValue v = ofValue w
  | .scalar h => by
    rw [ofValue_scalar h.left, ofValue_scalar h.right, ofPrimitive_of_sameClass h]
  | .array h => by
    rw [ofValue, ofValue, ofEach_of_resemble h, ofItems_of_rind _ (rinds_of_resemble h)]
  | .object h => by rw [ofValue, ofValue, ofMembers_of_resemble h]

theorem ofEach_of_resemble {items others : List Json} :
    ResembleItems items others → ofEach items = ofEach others
  | .nil => rfl
  | .cons hv h => by rw [ofEach, ofEach, ofValue_of_resembles hv, ofEach_of_resemble h]

theorem ofMembers_of_resemble {members others : List (String × Json)} :
    ResembleMembers members others → ofMembers members = ofMembers others
  | .nil => rfl
  | .cons k hv h => by rw [ofMembers, ofMembers, ofValue_of_resembles hv, ofMembers_of_resemble h]

end

theorem isContainer_of_resembles {v w : Json} (h : Resembles v w) :
    v.isContainer = w.isContainer := by
  cases h with
  | scalar h => rw [h.left, h.right]
  | _ => rfl

theorem ofDocument_of_resembles {v w : Json} (h : Resembles v w) :
    ofDocument v = ofDocument w := by
  rw [ofDocument, ofDocument, isContainer_of_resembles h, ofValue_of_resembles h]

/-- Documents that resemble each other have one tree, and their schemas are the same bytes.
So a value inside a document may be replaced, at any depth, by one that resembles it. -/
theorem infer_of_resembles {v w : Json} (h : Resembles v w) :
    ofDocument v = ofDocument w ∧
      Utf8.ofString (Schema.inferJson v).compact = Utf8.ofString (Schema.inferJson w).compact ∧
      Utf8.ofString (Schema.inferJson v).pretty = Utf8.ofString (Schema.inferJson w).pretty ∧
      ∀ c : Context, Schema.infer (c.fill v) = Schema.infer (c.fill w) := by
  have hinfer {v w : Json} (h : Resembles v w) : Schema.infer v = Schema.infer w := by
    rw [Schema.infer, Schema.infer, ofDocument_of_resembles h]
  have hjson : Schema.inferJson v = Schema.inferJson w := by
    rw [Schema.inferJson, Schema.inferJson, hinfer h]
  exact ⟨ofDocument_of_resembles h, by rw [hjson], by rw [hjson], fun c => hinfer (h.fill c)⟩

def row (flag name beside : Json) : Json :=
  .array [.object [("flag", flag), ("name", name)], beside]

def seven : Json := .number (.word ⟨7, by decide, by decide⟩)

theorem infer_of_resembling_rows :
    Resembles (row (.bool true) (.string "a") (.string "12"))
        (row (.bool false) (.string "bc") seven) ∧
      Schema.infer (.array [row (.bool true) (.string "a") (.string "12"), .null]) =
        Schema.infer (.array [row (.bool false) (.string "bc") seven, .null]) := by
  have hflag : SameClass (.bool true) (.bool false) := ⟨rfl, rfl, rfl, by simp⟩
  have hname : SameClass (.string "a") (.string "bc") := ⟨rfl, rfl, by decide +kernel, by simp⟩
  have hbeside : SameClass (.string "12") seven := ⟨rfl, rfl, by decide +kernel, by simp [seven]⟩
  have h := Resembles.array (.cons (.object (.cons "flag" (.scalar hflag)
    (.cons "name" (.scalar hname) .nil))) (.cons (.scalar hbeside) .nil))
  exact ⟨h, (infer_of_resembles h).2.2.2 (.item [] .hole [.null])⟩

end SchemaByExample.Shape
