import SchemaByExample.Proofs.Json.Rereading
import SchemaByExample.Proofs.Schema.Depth
import SchemaByExample.Proofs.Schema.Injective

/-! The ways to hand over an example: as a value, as a text of it, or as data of a program. They
all lead to one schema, except that a text may nest too many containers. -/
namespace SchemaByExample

namespace Data

open Json

mutual

/-- The data of a value stands for the value. -/
theorem toJson_ofJson : (v : Json) → v.Distinct → (ofJson v).toJson = .ok v
  | .null, _ => rfl
  | .bool _, _ => rfl
  | .number (.word n), _ => by
    simp only [ofJson, toJson, Word.ofInt?_value]
  | .number (.double _), _ => rfl
  | .string _, _ => rfl
  | .array items, hd => by
    rw [ofJson, toJson, itemsToJson_ofItems items hd]
    rfl
  | .object members, hd => by
    rw [ofJson, toJson, entriesToJson_ofMembers members hd.2]
    exact congrArg (fun ms => Except.ok (Json.object ms)) (Members.ofPairs_eq_self hd.1)

theorem itemsToJson_ofItems : (items : List Json) → DistinctItems items →
    itemsToJson (ofItems items) = .ok items
  | [], _ => rfl
  | v :: rest, hd => by
    rw [ofItems, itemsToJson, toJson_ofJson v hd.1, itemsToJson_ofItems rest hd.2]
    rfl

theorem entriesToJson_ofMembers : (members : List (String × Json)) → DistinctMembers members →
    entriesToJson (ofMembers members) = .ok members
  | [], _ => rfl
  | (k, v) :: rest, hd => by
    rw [ofMembers, entriesToJson, key, toJson_ofJson v hd.1, entriesToJson_ofMembers rest hd.2]
    rfl

end

end Data

namespace Schema

open Json Outline

theorem nodup_keys_written (s : Schema) {fields : List Field} (h : fields.Nodup) :
    (Members.keys (s.written fields)).Nodup := by
  induction fields with
  | nil => exact List.nodup_nil
  | cons f fields ih =>
    obtain ⟨hf, hrest⟩ := List.nodup_cons.mp h
    cases hv : s.value? f with
    | none =>
      rw [written_cons_none hv]
      exact ih hrest
    | some v =>
      rw [written_cons_some hv]
      refine List.nodup_cons.mpr ⟨fun hmem => ?_, ih hrest⟩
      obtain ⟨p, hp, hname⟩ := List.mem_map.mp hmem
      obtain ⟨g, hg, -, hk⟩ := mem_written_iff.mp hp
      exact hf (name_injective (hname.symm.trans hk) ▸ hg)

/-- No object in the JSON form of a schema repeats a name. -/
theorem distinct_toJson (s : Schema) :
    s.Distinct → ∀ position, (s.toJson position).Distinct := by
  induction s using parts_induction with
  | step s hitems hproperties =>
    intro hd position
    rw [toJson_eq_written]
    refine ⟨nodup_keys_written s (fieldOrder_nodup position),
      Json.distinctMembers_iff.mpr fun p hp => ?_⟩
    obtain ⟨f, -, hv, -⟩ := mem_written_iff.mp hp
    cases f with
    | items =>
      obtain ⟨i, hi, hv⟩ := Option.map_eq_some_iff.mp hv
      rw [← hv]
      exact hitems i hi (hd.items hi) .items
    | properties =>
      obtain ⟨ps, hps, hv⟩ := Option.map_eq_some_iff.mp hv
      rw [← hv]
      refine ⟨?_, Json.distinctMembers_iff.mpr (List.forall_mem_map.mpr fun q hq => ?_)⟩
      · have hkeys : Members.keys (ps.map fun p => (p.1, p.2.document)) = Members.keys ps :=
          List.map_map ..
        rw [hkeys]
        exact hd.keys hps
      · exact hproperties ps hps q hq (hd.property hps hq) .member
    | required =>
      obtain ⟨names, -, hv⟩ := Option.map_eq_some_iff.mp hv
      rw [← hv]
      exact Json.distinctItems_iff.mpr (List.forall_mem_map.mpr fun _ _ => trivial)
    | _ =>
      obtain ⟨a, -, hv⟩ := Option.map_eq_some_iff.mp hv
      rw [← hv]
      trivial

def Spells (text : String) (v : Json) : Prop :=
  ∃ front body back, Blanks front ∧ Written v body ∧ Blanks back ∧
    Utf8.ofString text = front ++ (body ++ back)

theorem spells_render {sp : Spacing} (hsp : sp.Blank) (v : Json) :
    Spells (String.ofList (render sp 0 v)) v := by
  refine ⟨[], _, [], .nil, written_render hsp 0 v, .nil, ?_⟩
  rw [Utf8.ofString, String.toList_ofList, List.append_nil, List.nil_append]

/-- All texts of a value are read as one value, unless it nests too many containers. Nothing
else is wrong with such a text. -/
theorem ofText_of_spells {v w : Json} (hw : Rereads v w) {text : String} (h : Spells text v) :
    (v.depth ≤ maxDepth → Json.ofText text = .ok w) ∧
    (maxDepth < v.depth → ∃ e path, Json.ofText text = .error e ∧ e.cause = .recursionLimit ∧
      e.path = some path) := by
  obtain ⟨front, body, back, hfront, hbody, hback, htext⟩ := h
  obtain ⟨cs, rfl, hdenotes⟩ := hw.denotes hbody
  obtain ⟨n, hlegible⟩ := legible_of_denotes hdenotes
  have hdepth : n = v.depth :=
    hlegible.nests.nesting_eq.symm.trans (nests_of_written v hbody).nesting_eq
  have hread := hlegible.reads maxDepth (endsValue_of_blanks hback)
  rw [← read_blanks _ _ hfront, hdepth] at hread
  simp only [Json.ofText, Json.ofBytes, htext, readWhole]
  constructor
  · intro hle
    rw [hread.ok hle]
    simp only [skipBlanks_blanks hback]
  · intro hlt
    obtain ⟨f, hf, hc⟩ := hread.limit (Nat.not_le.mpr hlt)
    rw [hf]
    exact ⟨_, _, rfl, hc, rfl⟩

/-- What is read from a text of a value has the schema of the value. -/
theorem yields_ofText {v : Json} (hd : v.Distinct) {text : String} (h : Spells text v) :
    (v.depth ≤ maxDepth → ∃ w, Json.ofText text = .ok w ∧ inferJson w = inferJson v) ∧
    (maxDepth < v.depth → ∃ e path, Json.ofText text = .error e ∧ e.cause = .recursionLimit ∧
      e.path = some path) := by
  obtain ⟨w, hw⟩ := exists_rereads v hd
  obtain ⟨hread, hlimit⟩ := ofText_of_spells hw h
  refine ⟨fun hle => ⟨w, hread hle, ?_⟩, hlimit⟩
  rw [inferJson, inferJson, infer, infer, Shape.ofDocument_of_resembles hw.like]

/-- The schema of a value, its JSON form as data, the schema for any text of the value and that
for the value as data are one, member by member. Only a text that nests more than 127 containers
is refused, and for that. -/
theorem inferences_agree (v : Json) (hd : v.Distinct) :
    (v.depth ≤ 127 → ∀ text, Spells text v → inferText text = .ok (inferJson v)) ∧
    (128 ≤ v.depth → ∀ text, Spells text v → ∃ e path,
      inferText text = .error (.text e) ∧ e.cause = .recursionLimit ∧
        (InputError.text e).message = depthMessage path e.place) ∧
    (∀ generator : Generator, generator.generate v = inferJson v) ∧
    (infer v).toData.toJson = .ok (inferJson v) ∧
    inferData (.ofJson v) = .ok (inferJson v) ∧
    Spells v.compact v ∧ Spells v.pretty v := by
  refine ⟨fun hle text h => ?_, fun hlt text h => ?_, fun _ => rfl, ?_, ?_,
    spells_render blank_compact v, spells_render blank_pretty v⟩
  · obtain ⟨w, hw, hschema⟩ := (yields_ofText hd h).1 hle
    simp only [inferText, hw, hschema]
  · obtain ⟨e, path, he, hc, hpath⟩ := (yields_ofText hd h).2 hlt
    refine ⟨e, path, by simp only [inferText, he], hc, ?_⟩
    obtain ⟨cause, path', place⟩ := e
    subst hc hpath
    rfl
  · exact Data.toJson_ofJson _ (distinct_toJson (infer v) (distinct_infer hd) .member)
  · simp only [inferData, Data.toJson_ofJson v hd]

def extremes : Json :=
  .object [("values", .array [.number (.double (Number.largest true)), .null]),
    ("\"", .string "\n\x07")]

theorem inferences_agree_extremes :
    extremes.Distinct ∧ extremes.depth ≤ 127 ∧
      inferText extremes.pretty = .ok (inferJson extremes) ∧
      inferData (.ofJson extremes) = .ok (inferJson extremes) ∧
      (nest 128).Distinct ∧ 128 ≤ (nest 128).depth ∧
      (∃ e, inferText (nest 128).compact = .error (.text e) ∧ e.cause = .recursionLimit) ∧
      inferData (.ofJson (nest 128)) = .ok (inferJson (nest 128)) := by
  have hd : extremes.Distinct := by decide
  have hle : extremes.depth ≤ 127 := by decide
  obtain ⟨htext, -, -, -, hdata, -, hpretty⟩ := inferences_agree extremes hd
  have hdeep : 128 ≤ (nest 128).depth := Nat.le_of_eq (depth_nest 128).symm
  obtain ⟨-, hrefused, -, -, hdata', hcompact, -⟩ := inferences_agree (nest 128) (distinct_nest 128)
  obtain ⟨e, path, he, hc, -⟩ := hrefused hdeep _ hcompact
  exact ⟨hd, hle, htext hle _ hpretty, hdata, distinct_nest 128, hdeep, ⟨e, he, hc⟩, hdata'⟩

end Schema

end SchemaByExample
