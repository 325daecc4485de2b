import SchemaByExample.Proofs.Shape.Noninterference

/-! Arrays of like objects. Such an array has the tree of its first item, marked, and so the
items behind the first may be any that are like it, wherever in a document the array stands. -/
namespace SchemaByExample.Shape

open Json

def collapsed (s : Shape) : Shape :=
  { s with kind := some .array, uniqueItems := some true, minItems := some 1 }

theorem minItems_ofValue {items : List Json} (hd : (Json.array items).Distinct) :
    (ofValue (.array items)).minItems = if homogeneous items then some 1 else none :=
  congrArg Shape.minItems (ofPart_array false hd)

theorem ofValue_collapsed {first : List (String × Json)} {rest : List Json}
    (hd : (Json.array (.object first :: rest)).Distinct)
    (h : homogeneous (.object first :: rest) = true) :
    ofValue (.array (.object first :: rest)) = collapsed (ofValue (.object first)) := by
  rw [ofValue_homogeneous hd h, itemParts, if_pos h, ofValue_object]
  rfl

/-! Replacing a value. -/

theorem isContainer_of_rind {v w : Json} (h : rind v = rind w) : v.isContainer = w.isContainer := by
  cases v <;> cases w <;> simp_all [rind, isContainer]

theorem rind_fill {v w : Json} (h : rind v = rind w) (c : Context) :
    rind (c.fill v) = rind (c.fill w) := by
  cases c with
  | hole => exact h
  | item before inner after => cases before <;> rfl
  | member before name inner after => simp [Context.fill, rind, Members.keys]

/-- The tree of a document depends on a value in it by the tree and the rind of the value. -/
theorem ofValue_fill {v w : Json} (hs : ofValue v = ofValue w) (hr : rind v = rind w)
    (c : Context) : ofValue (c.fill v) = ofValue (c.fill w) := by
  induction c with
  | hole => exact hs
  | item before inner after ih =>
    -- the array may compare its items, but a value below them is not seen there
    have hrinds : (before ++ inner.fill v :: after).map rind =
        (before ++ inner.fill w :: after).map rind := by
      simp only [List.map_append, List.map_cons, rind_fill hr inner]
    simp only [Context.fill, ofValue, ofEach_eq_map, List.map_append, List.map_cons, ih]
    exact ofItems_of_rind _ hrinds
  | member before name inner after ih =>
    simp only [Context.fill, ofValue_object, List.map_append, List.map_cons, ih]

theorem ofDocument_fill {v w : Json} (hs : ofValue v = ofValue w) (hr : rind v = rind w)
    (c : Context) : ofDocument (c.fill v) = ofDocument (c.fill w) := by
  rw [ofDocument, ofDocument, isContainer_of_rind (rind_fill hr c), ofValue_fill hs hr c]

/-- Items with the names of the first may follow it. -/
theorem ofValue_of_followers {first : List (String × Json)} {rest others : List Json}
    (hd : (Json.array (.object first :: rest)).Distinct)
    (h : homogeneous (.object first :: rest) = true)
    (ho : ∀ w ∈ others, w.Distinct ∧ hasNames (Members.keys first) w = true) :
    ofValue (.array (.object first :: others)) = ofValue (.array (.object first :: rest)) := by
  have hfirst : (Json.object first).Distinct := hd.item List.mem_cons_self
  have hothers : (Json.array (.object first :: others)).Distinct :=
    distinctItems_iff.mpr (List.forall_mem_cons.mpr ⟨hfirst, fun w hw => (ho w hw).1⟩)
  have hlike : homogeneous (.object first :: others) = true :=
    List.all_eq_true.mpr fun w hw => (ho w hw).2
  rw [ofValue_collapsed hothers hlike, ofValue_collapsed hd h]

/-- An array collapses exactly if there are items and all are objects with one set of names, and
then its tree is that of the first item, marked. So the items behind the first may be left out,
repeated, reordered or replaced by any objects with its names: nothing changes in the tree and
the schema of a document that has the array anywhere inside. -/
theorem collapses_to_first {items : List Json} (hd : (Json.array items).Distinct) :
    ((ofValue (.array items)).minItems = some 1 ↔
      items ≠ [] ∧ ∃ names, ∀ v ∈ items, hasNames names v = true) ∧
    ((ofValue (.array items)).minItems = some 1 →
      ∃ first rest, items = .object first :: rest ∧
        ofValue (.array items) =
          { ofValue (.object first) with
            kind := some .array, uniqueItems := some true, minItems := some 1 } ∧
        ∀ others, (∀ w ∈ others, w.Distinct ∧ hasNames (Members.keys first) w = true) →
          ∀ c : Context,
            ofDocument (c.fill (.array (.object first :: others))) =
              ofDocument (c.fill (.array items)) ∧
            Schema.inferJson (c.fill (.array (.object first :: others))) =
              Schema.inferJson (c.fill (.array items))) := by
  have hmarked : (ofValue (.array items)).minItems = some 1 ↔ homogeneous items = true := by
    rw [minItems_ofValue hd]
    split <;> simp [*]
  refine ⟨hmarked.trans homogeneous_iff, fun h => ?_⟩
  have hlike := hmarked.mp h
  obtain ⟨hne, names, hnames⟩ := homogeneous_iff.mp hlike
  obtain ⟨v, rest, rfl⟩ := List.exists_cons_of_ne_nil hne
  obtain ⟨first, rfl, -⟩ := hasNames_iff.mp (hnames v List.mem_cons_self)
  refine ⟨first, rest, rfl, ofValue_collapsed hd hlike, fun others ho c => ?_⟩
  have hdocument := ofDocument_fill (ofValue_of_followers hd hlike ho) (w := .array _) rfl c
  exact ⟨hdocument, by rw [Schema.inferJson, Schema.infer, hdocument]; rfl⟩

def record : List (String × Json) := [("id", .string "x"), ("tags", .array [.null])]

def records : List Json := [.object record, .object [("tags", .null), ("id", .null)]]

def followers : List Json :=
  [.object [("tags", .bool true), ("id", .object [])], .object [("id", .null), ("tags", .string "")]]

def ledger : Context :=
  .member [("open", .bool true)] "pages" (.item [.object [("id", .null)]] .hole [.string "end"]) []

theorem collapses_to_first_records :
    (Json.array records).Distinct ∧ (ofValue (.array records)).minItems = some 1 ∧
      (∀ w ∈ followers, w.Distinct ∧ hasNames (Members.keys record) w = true) ∧
      ofDocument (ledger.fill (.array (.object record :: followers))) =
        ofDocument (ledger.fill (.array records)) := by
  have hd : (Json.array records).Distinct := by decide
  have hfollowers : ∀ w ∈ followers, w.Distinct ∧ hasNames (Members.keys record) w = true := by
    decide
  obtain ⟨hiff, hfirst⟩ := collapses_to_first hd
  have hmark : (ofValue (.array records)).minItems = some 1 :=
    hiff.mpr ⟨by simp [records], ["id", "tags"], by decide⟩
  obtain ⟨first, rest, hrecords, -, hothers⟩ := hfirst hmark
  obtain ⟨hrecord, -⟩ := List.cons.inj hrecords
  obtain rfl := object.inj hrecord
  exact ⟨hd, hmark, hfollowers, (hothers followers hfollowers ledger).1⟩

end SchemaByExample.Shape
