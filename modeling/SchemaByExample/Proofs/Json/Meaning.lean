import SchemaByExample.Proofs.Json.Rereading
import SchemaByExample.Json.Pointer
import SchemaByExample.Proofs.Schema.Fields

/-! What texts denote. A text denotes one value at most, and no object in it repeats a name.
The printed text of a value without doubles denotes the value itself. -/
namespace SchemaByExample

namespace Json

open Read Literal

theorem eq_of_denotes {text : List Char} {v w : Json} (hv : Denotes text v)
    (hw : Denotes text w) : v = w := by
  obtain ⟨m, hlegible⟩ := legible_of_denotes hv
  obtain ⟨n, hlegible'⟩ := legible_of_denotes hw
  have hread : read (max m n) (Utf8.encode text ++ []) = .ok (v, []) :=
    (hlegible.reads (max m n) rfl).ok (Nat.le_max_left m n)
  have hread' : read (max m n) (Utf8.encode text ++ []) = .ok (w, []) :=
    (hlegible'.reads (max m n) rfl).ok (Nat.le_max_right m n)
  rw [hread] at hread'
  exact congrArg Prod.fst (Except.ok.inj hread')

mutual

theorem distinct_of_denotes : {text : List Char} → {v : Json} → Denotes text v → v.Distinct
  | _, _, .null => trivial
  | _, _, .true => trivial
  | _, _, .false => trivial
  | _, _, .number _ _ => trivial
  | _, _, .string _ => trivial
  | _, _, .array h => distinctItems_iff.mpr (distinctItems_of_denotes h)
  | _, _, .object h => ⟨Members.nodup_keys_ofPairs _, distinctMembers_iff.mpr fun p hp =>
      distinctMembers_of_denotes h p (Members.mem_of_mem_ofPairs hp)⟩

theorem distinctItems_of_denotes : {first : Bool} → {text : List Char} → {items : List Json} →
    DenotesItems first text items → ∀ v ∈ items, v.Distinct
  | _, _, _, .nil _ => by simp
  | _, _, _, .cons _ hv hmore =>
    List.forall_mem_cons.mpr ⟨distinct_of_denotes hv, distinctItems_of_denotes hmore⟩

theorem distinctMembers_of_denotes : {first : Bool} → {text : List Char} →
    {pairs : List (String × Json)} → DenotesMembers first text pairs →
    ∀ p ∈ pairs, p.2.Distinct
  | _, _, _, .nil _ => by simp
  | _, _, _, .cons _ _ _ _ hv hmore =>
    List.forall_mem_cons.mpr ⟨distinct_of_denotes hv, distinctMembers_of_denotes hmore⟩

end

/-- What is read has no repeated names: of members of one name the last stays. -/
theorem distinct_of_ofText {text : String} {v : Json} (h : ofText text = .ok v) :
    v.Distinct := by
  obtain ⟨-, front, body, back, -, hbody, -⟩ := ofBytes_eq_ok_iff.mp h
  exact distinct_of_denotes hbody

theorem integralItems_iff {items : List Json} :
    IntegralItems items ↔ ∀ v ∈ items, v.Integral := by
  induction items with
  | nil => simp [IntegralItems]
  | cons v rest ih => rw [IntegralItems, ih, List.forall_mem_cons]

theorem integralMembers_iff {members : List (String × Json)} :
    IntegralMembers members ↔ ∀ p ∈ members, p.2.Integral := by
  induction members with
  | nil => simp [IntegralMembers]
  | cons p rest ih => rw [IntegralMembers, ih, List.forall_mem_cons]

/-- Without doubles nothing is lost in print. -/
theorem denotes_render {sp : Spacing} (hsp : sp.Blank) {v : Json} (hd : v.Distinct)
    (hi : v.Integral) : Denotes (render sp 0 v) v := by
  obtain ⟨w, hw⟩ := exists_rereads v hd
  obtain ⟨cs, hcs, hdenotes⟩ := hw.denotes (written_render hsp 0 v)
  rw [Utf8.encode_injective hcs]
  rwa [hw.same hi] at hdenotes

end Json

namespace Pointer

open Json

theorem distinct_follow {tokens : List (List Char)} {v w : Json}
    (h : follow tokens v = some w) (hd : v.Distinct) : w.Distinct := by
  induction tokens generalizing v with
  | nil =>
    cases h
    exact hd
  | cons token rest ih =>
    cases v with
    | object members =>
      obtain ⟨x, hx, hrest⟩ := Option.bind_eq_some_iff.mp h
      exact ih hrest (hd.member (Members.mem_of_find? hx))
    | array items =>
      obtain ⟨i, -, h⟩ := Option.bind_eq_some_iff.mp h
      obtain ⟨x, hx, hrest⟩ := Option.bind_eq_some_iff.mp h
      exact ih hrest (hd.item (List.mem_of_getElem? hx))
    | _ => cases h

theorem distinct_resolve {pointer : String} {v w : Json} (h : resolve pointer v = some w)
    (hd : v.Distinct) : w.Distinct := by
  rw [resolve] at h
  split at h
  · cases h
    exact hd
  · exact distinct_follow h hd
  · cases h

end Pointer

end SchemaByExample
