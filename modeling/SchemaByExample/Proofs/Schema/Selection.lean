import SchemaByExample.Command.Load
import SchemaByExample.Proofs.Json.Path
import SchemaByExample.Proofs.Schema.Fields
import SchemaByExample.Proofs.Schema.Outline

/-! Selecting a part of a document and inferring its schema. What is inferred from the part
alone stands in the schema of the whole document at the place of the part, as far as the path
to it passes no array whose like objects are collapsed. -/
namespace SchemaByExample

open Json

namespace Schema

/-- The properties that the items of an array are described by, and those that are required. -/
def itemProperties (s : Schema) : Option (List (String × Schema)) := s.items.bind (·.properties)

def itemRequired (s : Schema) : Option (List String) := s.items.bind (·.required)

/-- The schema that a path leads to: a member is described by a property, and an item by a
property of the items. -/
def at? : List Step → Schema → Option Schema
  | [], s => some s
  | .member k :: path, s => (s.properties.bind (Members.find? k)).bind (at? path)
  | .item i :: path, s => (s.itemProperties.bind (Members.find? (toString i))).bind (at? path)

end Schema

namespace Selection

open Outline

/-- A path through members of objects, and through containers in arrays that keep their items
apart. -/
inductive Traced : Json → List Step → Json → Prop
  | here (v : Json) : Traced v [] v
  | member {members : List (String × Json)} {k : String} {v w : Json} {path : List Step} :
      Members.find? k members = some v → Traced v path w →
        Traced (.object members) (.member k :: path) w
  | item {items : List Json} {i : Nat} {v w : Json} {path : List Step} :
      homogeneous items = false → items[i]? = some v → v.isContainer = true →
        Traced v path w → Traced (.array items) (.item i :: path) w

theorem Traced.at?_eq {v w : Json} {path : List Step} (h : Traced v path w) :
    v.at? path = some w := by
  induction h with
  | here v => rfl
  | member hk _ ih => rw [Json.at?, hk, Option.bind_some, ih]
  | item _ hi _ _ ih => rw [Json.at?, hi, Option.bind_some, ih]

theorem Traced.distinct {v w : Json} {path : List Step} (h : Traced v path w)
    (hd : v.Distinct) : w.Distinct := by
  induction h with
  | here v => exact hd
  | member hk _ ih => exact ih (hd.member (Members.mem_of_find? hk))
  | item _ hi _ _ ih => exact ih (hd.item (List.mem_of_getElem? hi))

/-! Below the root. -/

theorem at?_schema {v w : Json} {path : List Step} (h : Traced v path w) (hd : v.Distinct)
    (apart : Bool) : ∃ a, (schema apart v).at? path = some (schema a w) := by
  induction h generalizing apart with
  | here v => exact ⟨apart, rfl⟩
  | @member members k v w path hk _ ih =>
    have hv : v.Distinct := hd.member (Members.mem_of_find? hk)
    obtain ⟨a, ha⟩ := ih hv false
    refine ⟨a, ?_⟩
    have hfind : Members.find? k (properties false members) = some (schema false v) := by
      rw [properties, Members.find?_map, hk, Option.map_some]
    rw [schema_object, Schema.at?]
    change ((Members.find? k (properties false members)).bind (Schema.at? path)) = _
    rw [hfind, Option.bind_some, ha]
  | @item items i v w path hh hi hv _ ih =>
    have hdv : v.Distinct := hd.item (List.mem_of_getElem? hi)
    obtain ⟨a, ha⟩ := ih hdv true
    refine ⟨a, ?_⟩
    have hfind : Members.find? (toString i) (properties true (itemParts items)) =
        some (schema true v) := by
      rw [properties, Members.find?_map, find?_itemParts hd hh hi hv, Option.map_some]
    rw [schema_array, Schema.at?, hh]
    change ((Members.find? (toString i) (properties true (itemParts items))).bind
      (Schema.at? path)) = _
    rw [hfind, Option.bind_some, ha]

/-- From the root a step leads to the same schema as from the same value below the root. -/
theorem at?_document {v w : Json} {s : Step} {path : List Step} (h : Traced v (s :: path) w) :
    (document v).at? (s :: path) = (schema false v).at? (s :: path) := by
  cases h with
  | member _ _ =>
    rw [schema_object]
    rfl
  | item _ _ _ _ =>
    rw [schema_array]
    rfl

def containerNames (parts : List (String × Json)) : List String :=
  Members.keys (parts.filter fun p => p.2.isContainer)

theorem mem_containerNames {parts : List (String × Json)} (hk : (Members.keys parts).Nodup)
    {p : String × Json} (hp : p ∈ parts) :
    p.1 ∈ containerNames parts ↔ p.2.isContainer = true := by
  constructor
  · intro h
    obtain ⟨q, hq, hname⟩ := List.mem_map.mp h
    obtain ⟨hq, hc⟩ := List.mem_filter.mp hq
    have hqv : (p.1, q.2) ∈ parts := hname ▸ hq
    have hpq := (Members.find?_of_mem hk hp).symm.trans (Members.find?_of_mem hk hqv)
    rw [Option.some.inj hpq]
    exact hc
  · intro h
    exact List.mem_map.mpr ⟨p, List.mem_filter.mpr ⟨hp, h⟩, rfl⟩

theorem presentScalars_eq_filter {parts : List (String × Json)}
    (hk : (Members.keys parts).Nodup) :
    presentScalars parts = (present parts).filter fun k => k ∉ containerNames parts := by
  rw [presentScalars, present, List.filter_map, List.filter_filter]
  congr 1
  refine List.filter_congr fun p hp => ?_
  have hmem := mem_containerNames hk hp
  cases hc : p.2.isContainer <;> simp_all [Bool.and_comm]

/-- The pointer for a path selects what the path leads to. -/
theorem select_ofPath {v w : Json} {path : List Step} (h : v.at? path = some w)
    {settings : Command.InputSettings} (hp : settings.pointer = some (Pointer.ofPath path))
    (hf : settings.filter = none) (engine : Filter.Engine) (label : String) :
    Command.select engine settings label v = .ok [w] := by
  rw [Command.select, hp, hf]
  simp only [Pointer.resolve_ofPath h]
  rfl

/-- What stands at the end of a path, compared with what is inferred from the value there
alone. Both are the same object apart from the marks of a document, which only the root has;
and of the required names of items only a root lists those of containers. -/
structure Corresponds (path : List Step) (w : Json) (s : Schema) : Prop where
  object : w.isObject = true → s.asPart = (Schema.infer w).asPart
  unmarked : path ≠ [] → s.asPart = s
  itemProperties : ∀ items, w = .array items → path ≠ [] →
    s.itemProperties = (Schema.infer w).itemProperties
  itemRequired : ∀ items, w = .array items → path ≠ [] →
    s.itemRequired = (Schema.infer w).itemRequired.map fun names =>
      names.filter fun k => k ∉ containerNames (itemParts items)

theorem corresponds_root (w : Json) : Corresponds [] w (Schema.infer w) :=
  ⟨fun _ => rfl, fun h => absurd rfl h, fun _ _ h => absurd rfl h, fun _ _ h => absurd rfl h⟩

theorem asPart_schema (apart : Bool) (w : Json) : (schema apart w).asPart = schema apart w := by
  cases w with
  | object members =>
    rw [schema_object]
    rfl
  | array items =>
    rw [schema_array]
    rfl
  | string t =>
    rw [schema.eq_def]
    simp only [text]
    split <;> rfl
  | _ =>
    rw [schema.eq_def]
    rfl

theorem corresponds_schema {w : Json} (hd : w.Distinct) (path : List Step) (apart : Bool) :
    Corresponds path w (schema apart w) := by
  constructor
  · intro ho
    cases w with
    | object members =>
      rw [Schema.infer, compile_ofDocument _ hd, schema_object]
      rfl
    | _ => simp [isObject] at ho
  · exact fun _ => asPart_schema apart w
  · rintro items rfl -
    rw [Schema.infer, compile_ofDocument _ hd, schema_array]
    rfl
  · rintro items rfl -
    rw [Schema.infer, compile_ofDocument _ hd, schema_array]
    exact congrArg some (presentScalars_eq_filter hd.itemParts)

/-- The schema of a document has a place for every traced path. What stands there corresponds
to what is inferred from the part that the path's pointer selects. -/
theorem infer_at? {v w : Json} {path : List Step} (hd : v.Distinct) (h : Traced v path w) :
    ∃ s, (Schema.infer v).at? path = some s ∧ Corresponds path w s ∧
      ∀ engine settings label, settings.pointer = some (Pointer.ofPath path) →
        settings.filter = none → Command.select engine settings label v = .ok [w] := by
  have hselect : ∀ engine settings label, settings.pointer = some (Pointer.ofPath path) →
      settings.filter = none → Command.select engine settings label v = .ok [w] :=
    fun engine _ label hp hf => select_ofPath h.at?_eq hp hf engine label
  cases path with
  | nil =>
    cases h with
    | here _ => exact ⟨Schema.infer v, rfl, corresponds_root v, hselect⟩
  | cons step path =>
    obtain ⟨a, ha⟩ := at?_schema h hd false
    refine ⟨schema a w, ?_, corresponds_schema (h.distinct hd) _ a, hselect⟩
    rw [Schema.infer, compile_ofDocument v hd, at?_document h, ha]

def parcel : Json :=
  .object [("a/~b", .array [.null, .object [("k", .bool true)],
    .array [.array [.object [("k", .null)]], .string "7", .bool false]])]

def parcelPath : List Step := [.member "a/~b", .item 2]

def parcelPart : Json := .array [.array [.object [("k", .null)]], .string "7", .bool false]

theorem infer_at?_parcel : parcel.Distinct ∧ Traced parcel parcelPath parcelPart ∧
    ∃ s, (Schema.infer parcel).at? parcelPath = some s ∧ Corresponds parcelPath parcelPart s ∧
      ∀ engine settings label, settings.pointer = some (Pointer.ofPath parcelPath) →
        settings.filter = none →
          Command.select engine settings label parcel = .ok [parcelPart] := by
  have hd : parcel.Distinct := by decide
  have h : Traced parcel parcelPath parcelPart :=
    .member rfl (.item (by decide) rfl rfl (.here parcelPart))
  exact ⟨hd, h, infer_at? hd h⟩

end Selection

end SchemaByExample
