import SchemaByExample.Proofs.Data.Faults
import SchemaByExample.Proofs.Json.Documents
import SchemaByExample.Proofs.Json.Verbatim
import SchemaByExample.Proofs.Number.Widening

/-! Data of programs in JSON. Data without a fault stand for one JSON value each, part by part. -/
namespace SchemaByExample

open Number

namespace Members

variable {α : Type}

/-- The members that pairs leave: each name at its first place and with its last value. -/
structure Merges (pairs : List (String × α)) (members : Members α) : Prop where
  keys_eq : keys members = (keys pairs).eraseDups
  find?_eq : ∀ k, find? k members = find? k pairs.reverse

/-- Members are told by their names in order and the values found under them. -/
theorem eq_of_find? {members others : Members α} (hn : (keys members).Nodup)
    (hk : keys members = keys others) (hf : ∀ k, find? k members = find? k others) :
    members = others := by
  have hn' : (keys others).Nodup := hk ▸ hn
  refine List.ext_getElem (by simpa [keys] using congrArg List.length hk) fun i hi hi' => ?_
  have hkey : members[i].1 = others[i].1 := by
    have hget := List.getElem_of_eq hk (by simpa [keys] using hi)
    simpa [keys] using hget
  have hvalue : find? others[i].1 others = some others[i].2 :=
    find?_of_mem hn' (List.getElem_mem hi')
  have hvalue' : find? members[i].1 members = some members[i].2 :=
    find?_of_mem hn (List.getElem_mem hi)
  rw [← hkey, ← hf, hvalue'] at hvalue
  exact Prod.ext hkey (Option.some.inj hvalue)

theorem merges_ofPairs (pairs : List (String × α)) : Merges pairs (ofPairs pairs) :=
  ⟨keys_ofPairs pairs, fun k => find?_ofPairs k pairs⟩

theorem Merges.eq_ofPairs {pairs : List (String × α)} {members : Members α}
    (h : Merges pairs members) : members = ofPairs pairs := by
  have hkeys : keys (ofPairs pairs) = keys members := (keys_ofPairs pairs).trans h.keys_eq.symm
  refine (eq_of_find? (nodup_keys_ofPairs pairs) hkeys fun k => ?_).symm
  rw [find?_ofPairs, h.find?_eq]

end Members

namespace Translation

open Json
open Literal (bind_eq_ok)

variable {α β : Type}

mutual

/-- The JSON value that a datum stands for. What is optional or a newtype is what is inside, numbers
that are not finite are null, bytes are numbers, a variant is an object of one member. -/
inductive Stands : Data → Json → Prop
  | unit : Stands .unit .null
  | some {d : Data} {v : Json} : Stands d v → Stands (.some d) v
  | newtype {d : Data} {v : Json} : Stands d v → Stands (.newtype d) v
  | bool (b : Bool) : Stands (.bool b) (.bool b)
  | integer {n : Int} {w : Word} : n = w.value → Stands (.integer n) (.number (.word w))
  | single {x : Binary Format.single} {y : Double} : SameNumber x y →
      Stands (.single (.finite x)) (.number (.double y))
  | double (x : Double) : Stands (.double (.finite x)) (.number (.double x))
  | singleNull {x : Extended Format.single} : x.finite? = none → Stands (.single x) .null
  | doubleNull {x : Extended Format.double} : x.finite? = none → Stands (.double x) .null
  | text (s : String) : Stands (.text s) (.string s)
  | bytes {bs : List UInt8} {vs : List Json} :
      StandItems (bs.map fun b => .integer b.toNat) vs → Stands (.bytes bs) (.array vs)
  | sequence {items : List Data} {vs : List Json} : StandItems items vs →
      Stands (.sequence items) (.array vs)
  | record {fields : List (String × Data)} {pairs members : List (String × Json)} :
      StandFields fields pairs → Members.Merges pairs members →
      Stands (.record fields) (.object members)
  | map {entries : List (Data × Data)} {pairs members : List (String × Json)} :
      StandEntries entries pairs → Members.Merges pairs members →
      Stands (.map entries) (.object members)
  | variant (name : String) : Stands (.variant name) (.string name)
  | variantOf (name : String) {d : Data} {v : Json} : Stands d v →
      Stands (.variantOf name d) (.object [(name, v)])
  | variantSequence (name : String) {items : List Data} {vs : List Json} : StandItems items vs →
      Stands (.variantSequence name items) (.object [(name, .array vs)])
  | variantRecord (name : String) {fields : List (String × Data)}
      {pairs members : List (String × Json)} :
      StandFields fields pairs → Members.Merges pairs members →
      Stands (.variantRecord name fields) (.object [(name, .object members)])

inductive StandItems : List Data → List Json → Prop
  | nil : StandItems [] []
  | cons {d : Data} {v : Json} {items : List Data} {vs : List Json} : Stands d v →
      StandItems items vs → StandItems (d :: items) (v :: vs)

inductive StandFields : List (String × Data) → List (String × Json) → Prop
  | nil : StandFields [] []
  | cons {name : String} {d : Data} {v : Json} {fields : List (String × Data)}
      {pairs : List (String × Json)} : Stands d v → StandFields fields pairs →
      StandFields ((name, d) :: fields) ((name, v) :: pairs)

inductive StandEntries : List (Data × Data) → List (String × Json) → Prop
  | nil : StandEntries [] []
  | cons {k d : Data} {name : String} {v : Json} {entries : List (Data × Data)}
      {pairs : List (String × Json)} : Names k name → Stands d v → StandEntries entries pairs →
      StandEntries ((k, d) :: entries) ((name, v) :: pairs)

end

theorem standItems_bytes_iff {bs : List UInt8} {vs : List Json} :
    StandItems (bs.map fun b => .integer b.toNat) vs ↔
      vs = bs.map fun b => .natural b.toUInt32 := by
  induction bs generalizing vs with
  | nil =>
    constructor
    · intro h
      cases h
      rfl
    · rintro rfl
      exact .nil
  | cons b bs ih =>
    constructor
    · intro h
      cases h with
      | cons hb hrest =>
        cases hb with
        | @integer _ w hw =>
          obtain rfl := ih.mp hrest
          obtain ⟨value, low, high⟩ := w
          obtain rfl : (b.toNat : Int) = value := hw
          rfl
    · rintro rfl
      exact .cons (.integer rfl) (ih.mpr rfl)

theorem stands_single_iff {x : Extended Format.single} {v : Json} :
    Stands (.single x) v ↔ v = Data.ofFloat (Data.widen x) := by
  cases x with
  | finite x =>
    obtain ⟨y, hy, hsame⟩ := wider_double.exists_sameNumber x
    rw [Data.widen, ofRatio_eq_finite_iff.mpr hy]
    constructor
    · intro h
      cases h with
      | single h => rw [h.unique precision_pos hsame, Data.ofFloat]
      | singleNull h => cases h
    · rintro rfl
      exact .single hsame
  | _ =>
    constructor
    · intro h
      cases h
      rfl
    · rintro rfl
      exact .singleNull rfl

theorem stands_double_iff {x : Extended Format.double} {v : Json} :
    Stands (.double x) v ↔ v = Data.ofFloat x := by
  constructor
  · intro h
    cases h with
    | double x => rfl
    | doubleNull h =>
      cases x with
      | finite x => cases h
      | _ => rfl
  · rintro rfl
    cases x with
    | finite x => exact .double x
    | _ => exact .doubleNull rfl

mutual

theorem toJson_of_stands : (d : Data) → {v : Json} → Stands d v → d.toJson = .ok v
  | .unit, _, .unit => rfl
  | .some inner, _, .some h => toJson_of_stands inner h
  | .newtype inner, _, .newtype h => toJson_of_stands inner h
  | .bool _, _, .bool _ => rfl
  | .integer _, _, .integer h => by rw [Data.toJson, ofInt?_eq_some_iff.mpr h]
  | .single _, _, h => congrArg Except.ok (stands_single_iff.mp h).symm
  | .double _, _, h => congrArg Except.ok (stands_double_iff.mp h).symm
  | .text _, _, .text _ => rfl
  | .bytes _, _, .bytes h => by rw [Data.toJson, standItems_bytes_iff.mp h]
  | .variant _, _, .variant _ => rfl
  | .sequence items, _, .sequence h => by
    rw [Data.toJson, itemsToJson_of_stands items h]
    rfl
  | .record fields, _, .record h hm => by
    rw [Data.toJson, fieldsToJson_of_stands fields h, hm.eq_ofPairs]
    rfl
  | .map entries, _, .map h hm => by
    rw [Data.toJson, entriesToJson_of_stands entries h, hm.eq_ofPairs]
    rfl
  | .variantOf _ inner, _, .variantOf _ h => by
    rw [Data.toJson, toJson_of_stands inner h]
    rfl
  | .variantSequence _ items, _, .variantSequence _ h => by
    rw [Data.toJson, itemsToJson_of_stands items h]
    rfl
  | .variantRecord _ fields, _, .variantRecord _ h hm => by
    rw [Data.toJson, fieldsToJson_of_stands fields h, hm.eq_ofPairs]
    rfl

theorem itemsToJson_of_stands : (items : List Data) → {vs : List Json} → StandItems items vs →
    Data.itemsToJson items = .ok vs
  | [], _, .nil => rfl
  | d :: rest, _, .cons h hrest => by
    rw [Data.itemsToJson, toJson_of_stands d h, itemsToJson_of_stands rest hrest]
    rfl

theorem fieldsToJson_of_stands : (fields : List (String × Data)) →
    {pairs : List (String × Json)} → StandFields fields pairs →
    Data.fieldsToJson fields = .ok pairs
  | [], _, .nil => rfl
  | (_, d) :: rest, _, .cons h hrest => by
    rw [Data.fieldsToJson, toJson_of_stands d h, fieldsToJson_of_stands rest hrest]
    rfl

theorem entriesToJson_of_stands : (entries : List (Data × Data)) →
    {pairs : List (String × Json)} → StandEntries entries pairs →
    Data.entriesToJson entries = .ok pairs
  | [], _, .nil => rfl
  | (_, d) :: rest, _, .cons hk h hrest => by
    rw [Data.entriesToJson, key_of_names hk, toJson_of_stands d h,
      entriesToJson_of_stands rest hrest]
    rfl

end

theorem bind_pure_eq_ok {x : Except DataError α} {f : α → β} {b : β} :
    (x >>= fun a => pure (f a)) = .ok b ↔ ∃ a, x = .ok a ∧ f a = b := by
  refine bind_eq_ok.trans (exists_congr fun a => and_congr_right fun _ => ?_)
  exact ⟨Except.ok.inj, congrArg Except.ok⟩

mutual

theorem stands_of_toJson : (d : Data) → {v : Json} → d.toJson = .ok v → Stands d v
  | .unit, _, rfl => .unit
  | .some inner, _, h => .some (stands_of_toJson inner h)
  | .newtype inner, _, h => .newtype (stands_of_toJson inner h)
  | .bool b, _, rfl => .bool b
  | .integer n, _, h => by
    rw [Data.toJson] at h
    split at h
    · rename_i hw
      cases h
      exact .integer (ofInt?_eq_some_iff.mp hw)
    · cases h
  | .single _, _, h => stands_single_iff.mpr (Except.ok.inj h).symm
  | .double _, _, h => stands_double_iff.mpr (Except.ok.inj h).symm
  | .text s, _, rfl => .text s
  | .bytes _, _, rfl => .bytes (standItems_bytes_iff.mpr rfl)
  | .variant name, _, rfl => .variant name
  | .sequence items, _, h => by
    obtain ⟨vs, hvs, rfl⟩ := bind_pure_eq_ok.mp h
    exact .sequence (standItems_of_itemsToJson items hvs)
  | .record fields, _, h => by
    obtain ⟨pairs, hpairs, rfl⟩ := bind_pure_eq_ok.mp h
    exact .record (standFields_of_fieldsToJson fields hpairs) (Members.merges_ofPairs pairs)
  | .map entries, _, h => by
    obtain ⟨pairs, hpairs, rfl⟩ := bind_pure_eq_ok.mp h
    exact .map (standEntries_of_entriesToJson entries hpairs) (Members.merges_ofPairs pairs)
  | .variantOf name inner, _, h => by
    obtain ⟨v, hv, rfl⟩ := bind_pure_eq_ok.mp h
    exact .variantOf name (stands_of_toJson inner hv)
  | .variantSequence name items, _, h => by
    obtain ⟨vs, hvs, rfl⟩ := bind_pure_eq_ok.mp h
    exact .variantSequence name (standItems_of_itemsToJson items hvs)
  | .variantRecord name fields, _, h => by
    obtain ⟨pairs, hpairs, rfl⟩ := bind_pure_eq_ok.mp h
    exact .variantRecord name (standFields_of_fieldsToJson fields hpairs)
      (Members.merges_ofPairs pairs)

theorem standItems_of_itemsToJson : (items : List Data) → {vs : List Json} →
    Data.itemsToJson items = .ok vs → StandItems items vs
  | [], _, rfl => .nil
  | d :: rest, _, h => by
    obtain ⟨v, hv, h⟩ := bind_eq_ok.mp h
    obtain ⟨vs, hvs, rfl⟩ := bind_pure_eq_ok.mp h
    exact .cons (stands_of_toJson d hv) (standItems_of_itemsToJson rest hvs)

theorem standFields_of_fieldsToJson : (fields : List (String × Data)) →
    {pairs : List (String × Json)} → Data.fieldsToJson fields = .ok pairs →
    StandFields fields pairs
  | [], _, rfl => .nil
  | (_, d) :: rest, _, h => by
    obtain ⟨v, hv, h⟩ := bind_eq_ok.mp h
    obtain ⟨pairs, hpairs, rfl⟩ := bind_pure_eq_ok.mp h
    exact .cons (stands_of_toJson d hv) (standFields_of_fieldsToJson rest hpairs)

theorem standEntries_of_entriesToJson : (entries : List (Data × Data)) →
    {pairs : List (String × Json)} → Data.entriesToJson entries = .ok pairs →
    StandEntries entries pairs
  | [], _, rfl => .nil
  | (k, d) :: rest, _, h => by
    obtain ⟨name, hname, h⟩ := bind_eq_ok.mp h
    obtain ⟨v, hv, h⟩ := bind_eq_ok.mp h
    obtain ⟨pairs, hpairs, rfl⟩ := bind_pure_eq_ok.mp h
    exact .cons (key_eq_ok_iff.mp hname) (stands_of_toJson d hv)
      (standEntries_of_entriesToJson rest hpairs)

end

theorem toJson_eq_ok_iff {d : Data} {v : Json} : d.toJson = .ok v ↔ Stands d v :=
  ⟨stands_of_toJson d, toJson_of_stands d⟩

theorem Stands.unique {d : Data} {v w : Json} (hv : Stands d v) (hw : Stands d w) : v = w := by
  have hv' := toJson_eq_ok_iff.mpr hv
  rw [toJson_eq_ok_iff.mpr hw] at hv'
  exact (Except.ok.inj hv').symm

end Translation

namespace Schema

open Translation

variable {d : Data} {e : InputError}

theorem inferData_eq_error_iff :
    inferData d = .error e ↔ ∃ fault, d.toJson = .error fault ∧ e = .data fault := by
  rw [inferData]
  cases d.toJson <;> simp [eq_comm]

theorem inferData_of_stands {v : Json} (h : Stands d v) : inferData d = .ok (inferJson v) := by
  rw [inferData, toJson_eq_ok_iff.mpr h]

/-- Inference from data fails if some value is an integer that no word holds or some name of an
entry is none, and then for the first such place. All other data stand for one JSON value, and the
schema is the one of that value. -/
theorem inferData_fails_at_first_fault (d : Data) :
    ((∃ e, inferData d = .error e) ↔
      (∃ n, .value (.integer n) ∈ places d ∧ OutsideWords n) ∨
        ∃ k, .name k ∈ places d ∧ ¬∃ name, Names k name) ∧
    (∀ e, inferData d = .error e ↔ ∃ front p back fault, places d = front ++ p :: back ∧
      p.fault? = some fault ∧ (∀ q ∈ front, q.fault? = none) ∧ e = .data fault) ∧
    ((∀ p ∈ places d, p.fault? = none) →
      ∃ v, inferData d = .ok (inferJson v) ∧ ∀ w, Stands d w ↔ w = v) := by
  have hsettles := settles_toJson d
  refine ⟨?_, fun e => ?_, fun h => ?_⟩
  · rw [← exists_fault_iff, ← hsettles.fails_iff]
    simp only [inferData_eq_error_iff]
    constructor
    · intro h
      obtain ⟨e, fault, hfault, -⟩ := h
      exact ⟨fault, hfault⟩
    · intro h
      obtain ⟨fault, hfault⟩ := h
      exact ⟨.data fault, fault, hfault, rfl⟩
  · rw [inferData_eq_error_iff]
    constructor
    · intro h
      obtain ⟨fault, hfault, he⟩ := h
      obtain ⟨front, p, back, hplaces, hp, hfront⟩ := hsettles.eq_error_iff.mp hfault
      exact ⟨front, p, back, fault, hplaces, hp, hfront, he⟩
    · intro h
      obtain ⟨front, p, back, fault, hplaces, hp, hfront, he⟩ := h
      exact ⟨fault, hsettles.eq_error_iff.mpr ⟨front, p, back, hplaces, hp, hfront⟩, he⟩
  · obtain ⟨v, hv⟩ := hsettles.eq_ok_iff.mpr h
    have hstands := toJson_eq_ok_iff.mp hv
    refine ⟨v, inferData_of_stands hstands, fun w => ⟨fun hw => hw.unique hstands, ?_⟩⟩
    intro hw
    rwa [hw]

def ledger : Data := .record [
  ("rate", .double .nan),
  ("rows", .map [(.newtype (.integer 1), .some (.bytes [0, 255])), (.text "open", .unit),
    (.integer (2 ^ 100), .variantOf "Paid" (.single (.infinite true))), (.text "1", .bool true)])]

def muddle : Data := .sequence [.integer (2 ^ 64 - 1), .map [(.double .nan, .integer (2 ^ 64))]]

def ledgerJson : Json := .object [
  ("rate", .null),
  ("rows", .object [("1", .bool true), ("open", .null),
    ("1267650600228229401496703205376", .object [("Paid", .null)])])]

theorem inferData_fails_at_first_fault_ledger :
    (∀ p ∈ places ledger, p.fault? = none) ∧ Stands ledger ledgerJson ∧
      inferData ledger = .ok (inferJson ledgerJson) ∧
      inferData muddle = .error (.data .keyNotFinite) := by
  have hfaultless : ∀ p ∈ places ledger, p.fault? = none := by decide +kernel
  have hledger : Stands ledger ledgerJson := toJson_eq_ok_iff.mp (by rfl)
  obtain ⟨-, -, hstands⟩ := inferData_fails_at_first_fault ledger
  obtain ⟨-, hfirst, -⟩ := inferData_fails_at_first_fault muddle
  obtain ⟨v, hv, hunique⟩ := hstands hfaultless
  refine ⟨hfaultless, hledger, ?_, (hfirst _).mpr ?_⟩
  · rw [hv, (hunique ledgerJson).mp hledger]
  · exact ⟨[_, _, _], _, [_], .keyNotFinite, rfl, rfl, by decide +kernel, rfl⟩

end Schema

end SchemaByExample
