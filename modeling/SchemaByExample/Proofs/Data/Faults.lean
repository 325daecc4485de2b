import Mathlib.Algebra.Group.Int.Defs
import SchemaByExample.Infer

/-! Data of programs that JSON cannot write. Two things have no JSON form: an integer that no word
holds, where a value stands, and a datum that is no name, where a name stands. The first of them in
the order of writing is the error. -/
namespace SchemaByExample.Translation

open Number

variable {α β : Type}

/-! Names. -/

inductive Names : Data → String → Prop
  | newtype {inner : Data} {name : String} : Names inner name → Names (.newtype inner) name
  | bool (b : Bool) : Names (.bool b) (if b then "true" else "false")
  | integer (n : Int) : Names (.integer n) (toString n)
  | single (x : Binary Format.single) : Names (.single (.finite x)) x.text
  | double (x : Double) : Names (.double (.finite x)) x.text
  | text (s : String) : Names (.text s) s
  | variant (name : String) : Names (.variant name) name

def nameFault? : Data → Option DataError
  | .newtype inner => nameFault? inner
  | .bool _ | .integer _ | .text _ | .variant _ => none
  | .single (.finite _) | .double (.finite _) => none
  | .single _ | .double _ => some .keyNotFinite
  | _ => some .keyNotString

theorem key_of_names {d : Data} {name : String} (h : Names d name) : d.key = .ok name := by
  induction h with
  | newtype _ ih => exact ih
  | _ => rfl

/-- A datum is a name, or it has a fault as one. -/
theorem key_cases : (d : Data) →
    (∃ name, Names d name ∧ nameFault? d = none) ∨
      ∃ fault, d.key = .error fault ∧ nameFault? d = some fault
  | .newtype inner => by
    obtain ⟨name, hname, hfault⟩ | ⟨fault, hkey, hfault⟩ := key_cases inner
    · exact .inl ⟨name, .newtype hname, hfault⟩
    · exact .inr ⟨fault, hkey, hfault⟩
  | .bool b => .inl ⟨_, .bool b, rfl⟩
  | .integer n => .inl ⟨_, .integer n, rfl⟩
  | .text s => .inl ⟨_, .text s, rfl⟩
  | .variant name => .inl ⟨_, .variant name, rfl⟩
  | .single (.finite x) => .inl ⟨_, .single x, rfl⟩
  | .double (.finite x) => .inl ⟨_, .double x, rfl⟩
  | .single .nan | .single (.infinite _) => .inr ⟨.keyNotFinite, rfl, rfl⟩
  | .double .nan | .double (.infinite _) => .inr ⟨.keyNotFinite, rfl, rfl⟩
  | .unit | .some _ | .bytes _ | .sequence _ | .record _ | .map _ => .inr ⟨.keyNotString, rfl, rfl⟩
  | .variantOf _ _ | .variantSequence _ _ | .variantRecord _ _ => .inr ⟨.keyNotString, rfl, rfl⟩

theorem key_eq_ok_iff {d : Data} {name : String} : d.key = .ok name ↔ Names d name := by
  refine ⟨fun h => ?_, key_of_names⟩
  obtain ⟨name', hname, -⟩ | ⟨fault, hkey, -⟩ := key_cases d
  · rw [key_of_names hname] at h
    cases h
    exact hname
  · rw [hkey] at h
    cases h

theorem nameFault?_eq_none_iff {d : Data} : nameFault? d = none ↔ ∃ name, Names d name := by
  obtain ⟨name, hname, hfault⟩ | ⟨fault, hkey, hfault⟩ := key_cases d
  · exact iff_of_true hfault ⟨name, hname⟩
  · refine iff_of_false (by simp [hfault]) fun h => ?_
    obtain ⟨name, hname⟩ := h
    rw [key_of_names hname] at hkey
    cases hkey

/-! Places. -/

/-- A place in a datum: where a value stands, or where the name of a map's entry stands. -/
inductive Place where
  | value (d : Data)
  | name (d : Data)

def OutsideWords (n : Int) : Prop := ¬(-2 ^ 63 ≤ n ∧ n < 2 ^ 63) ∧ ¬(0 ≤ n ∧ n < 2 ^ 64)

instance (n : Int) : Decidable (OutsideWords n) := inferInstanceAs (Decidable (_ ∧ _))

def Place.fault? : Place → Option DataError
  | .value (.integer n) => if OutsideWords n then some .numberOutOfRange else none
  | .value _ => none
  | .name d => nameFault? d

mutual

/-- The places inside a datum, at any depth, in the order in which they are written: the name of
an entry before its value. -/
def inside : Data → List Place
  | .some inner => .value inner :: inside inner
  | .newtype inner => .value inner :: inside inner
  | .sequence items => insideItems items
  | .record fields => insideFields fields
  | .map entries => insideEntries entries
  | .variantOf _ inner => .value inner :: inside inner
  | .variantSequence _ items => insideItems items
  | .variantRecord _ fields => insideFields fields
  | _ => []

def insideItems : List Data → List Place
  | [] => []
  | d :: rest => .value d :: inside d ++ insideItems rest

def insideFields : List (String × Data) → List Place
  | [] => []
  | (_, d) :: rest => .value d :: inside d ++ insideFields rest

def insideEntries : List (Data × Data) → List Place
  | [] => []
  | (k, d) :: rest => .name k :: (.value d :: inside d ++ insideEntries rest)

end

def places (d : Data) : List Place := .value d :: inside d

def failure? : Except DataError α → Option DataError
  | .ok _ => none
  | .error fault => some fault

/-- What is made out of the places is the first fault among them, if there is one. -/
def Settles (ps : List Place) (x : Except DataError α) : Prop :=
  ps.findSome? Place.fault? = failure? x

namespace Settles

variable {ps qs : List Place} {x : Except DataError α}

theorem ok (a : α) : Settles [] (.ok a : Except DataError α) := rfl

/-- What stands later matters if nothing before it has a fault. -/
theorem bind {f : α → Except DataError β} (hx : Settles ps x) (hf : ∀ a, Settles qs (f a)) :
    Settles (ps ++ qs) (x >>= f) := by
  rw [Settles] at hx
  rw [Settles, List.findSome?_append, hx]
  cases x with
  | error fault => rfl
  | ok a => exact hf a

theorem map (hx : Settles ps x) (f : α → β) :
    Settles ps (x >>= fun a => .ok (f a)) := by
  have hbind := hx.bind fun a => ok (f a)
  rwa [List.append_nil] at hbind

/-- A value that is no integer has no fault itself. -/
theorem cons {p : Place} (hp : p.fault? = none) (hx : Settles ps x) : Settles (p :: ps) x := by
  rwa [Settles, List.findSome?_cons_of_isNone (by simp [hp])]

theorem eq_ok_iff (hx : Settles ps x) : (∃ a, x = .ok a) ↔ ∀ p ∈ ps, p.fault? = none := by
  rw [← List.findSome?_eq_none_iff, hx]
  cases x <;> simp [failure?]

theorem eq_error_iff (hx : Settles ps x) {fault : DataError} : x = .error fault ↔
    ∃ front p back, ps = front ++ p :: back ∧ p.fault? = some fault ∧
      ∀ q ∈ front, q.fault? = none := by
  rw [← List.findSome?_eq_some_iff, hx]
  cases x <;> simp [failure?]

theorem fails_iff (hx : Settles ps x) :
    (∃ fault, x = .error fault) ↔ ∃ p ∈ ps, p.fault? ≠ none := by
  cases x with
  | ok a =>
    have hnone := hx.eq_ok_iff.mp ⟨a, rfl⟩
    refine iff_of_false (by simp) fun h => ?_
    obtain ⟨p, hp, hfault⟩ := h
    exact hfault (hnone p hp)
  | error fault =>
    obtain ⟨front, p, back, rfl, hp, -⟩ := hx.eq_error_iff.mp rfl
    exact iff_of_true ⟨fault, rfl⟩ ⟨p, by simp, by simp [hp]⟩

end Settles

theorem settles_key (d : Data) : Settles [.name d] d.key := by
  obtain ⟨name, hname, hfault⟩ | ⟨fault, hkey, hfault⟩ := key_cases d
  · rw [key_of_names hname]
    exact (Settles.ok name).cons hfault
  · simp [Settles, hkey, Place.fault?, hfault, failure?]

theorem ofInt?_eq_none_iff (n : Int) : Word.ofInt? n = none ↔ OutsideWords n := by
  rw [Word.ofInt?, OutsideWords]
  split
  · rename_i h
    refine iff_of_false (by simp) ?_
    omega
  · rename_i h
    refine iff_of_true rfl ?_
    omega

theorem settles_integer (n : Int) : Settles [.value (.integer n)] (Data.toJson (.integer n)) := by
  have hnone := ofInt?_eq_none_iff n
  rw [Settles, Data.toJson]
  cases hw : Word.ofInt? n with
  | none => simp [Place.fault?, hnone.mp hw, failure?]
  | some w =>
    have hinside : ¬OutsideWords n := by
      rw [← hnone, hw]
      simp
    simp [Place.fault?, hinside, failure?]

mutual

theorem settles_toJson : (d : Data) → Settles (places d) d.toJson
  | .integer n => settles_integer n
  | .unit => .cons rfl (.ok _)
  | .bool _ => .cons rfl (.ok _)
  | .single _ => .cons rfl (.ok _)
  | .double _ => .cons rfl (.ok _)
  | .text _ => .cons rfl (.ok _)
  | .bytes _ => .cons rfl (.ok _)
  | .variant _ => .cons rfl (.ok _)
  | .some inner => .cons rfl (settles_toJson inner)
  | .newtype inner => .cons rfl (settles_toJson inner)
  | .sequence items => .cons rfl ((settles_itemsToJson items).map _)
  | .record fields => .cons rfl ((settles_fieldsToJson fields).map _)
  | .map entries => .cons rfl ((settles_entriesToJson entries).map _)
  | .variantOf _ inner => .cons rfl ((settles_toJson inner).map _)
  | .variantSequence _ items => .cons rfl ((settles_itemsToJson items).map _)
  | .variantRecord _ fields => .cons rfl ((settles_fieldsToJson fields).map _)

theorem settles_itemsToJson : (items : List Data) →
    Settles (insideItems items) (Data.itemsToJson items)
  | [] => .ok _
  | d :: rest => (settles_toJson d).bind fun _ => (settles_itemsToJson rest).map _

theorem settles_fieldsToJson : (fields : List (String × Data)) →
    Settles (insideFields fields) (Data.fieldsToJson fields)
  | [] => .ok _
  | (_, d) :: rest => (settles_toJson d).bind fun _ => (settles_fieldsToJson rest).map _

theorem settles_entriesToJson : (entries : List (Data × Data)) →
    Settles (insideEntries entries) (Data.entriesToJson entries)
  | [] => .ok _
  | (k, d) :: rest => (settles_key k).bind fun _ =>
    (settles_toJson d).bind fun _ => (settles_entriesToJson rest).map _

end

theorem fault?_integer_ne_none_iff (n : Int) :
    (Place.value (.integer n)).fault? ≠ none ↔ OutsideWords n := by
  simp [Place.fault?]

/-- The two sorts of places that are at fault. -/
theorem exists_fault_iff {ps : List Place} : (∃ p ∈ ps, p.fault? ≠ none) ↔
    (∃ n, .value (.integer n) ∈ ps ∧ OutsideWords n) ∨
      ∃ k, .name k ∈ ps ∧ ¬∃ name, Names k name := by
  constructor
  · intro h
    obtain ⟨p, hp, hfault⟩ := h
    cases p with
    | name k => exact .inr ⟨k, hp, fun hname => hfault (nameFault?_eq_none_iff.mpr hname)⟩
    | value d =>
      cases d with
      | integer n => exact .inl ⟨n, hp, (fault?_integer_ne_none_iff n).mp hfault⟩
      | _ => exact absurd rfl hfault
  · intro h
    obtain ⟨n, hn, hout⟩ | ⟨k, hk, hname⟩ := h
    · exact ⟨_, hn, (fault?_integer_ne_none_iff n).mpr hout⟩
    · exact ⟨_, hk, fun hnone => hname (nameFault?_eq_none_iff.mp hnone)⟩

end SchemaByExample.Translation
