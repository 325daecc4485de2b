import SchemaByExample.Shape.Similarity
import SchemaByExample.Proofs.Json.CompactText
import SchemaByExample.Proofs.Json.Parts
import SchemaByExample.Proofs.Number.NonNegative

/-! Signatures. Those of two objects are equal exactly when the objects have one set of
names, no other value has the signature of an object, and all other values are told apart. So
items are alike exactly when they are homogeneous, and then the item that stands for them may be
taken to be the first. -/
namespace SchemaByExample.Similarity

open Json Number

theorem sortKeys_perm (names : List String) : (sortKeys names).Perm names :=
  List.mergeSort_perm names _

theorem pairwise_sortKeys (names : List String) : (sortKeys names).Pairwise (· ≤ ·) := by
  have trans (a b c : String) (hab : decide (a ≤ b) = true) (hbc : decide (b ≤ c) = true) :
      decide (a ≤ c) = true := by
    simpa using String.le_trans (of_decide_eq_true hab) (of_decide_eq_true hbc)
  have total (a b : String) : (decide (a ≤ b) || decide (b ≤ a)) = true := by
    simpa using String.le_total a b
  have h := List.pairwise_mergeSort trans total names
  exact h.imp of_decide_eq_true

theorem sortKeys_eq_iff {a b : List String} (ha : a.Nodup) (hb : b.Nodup) :
    sortKeys a = sortKeys b ↔ ∀ k, k ∈ a ↔ k ∈ b := by
  constructor
  · intro h k
    rw [← (sortKeys_perm a).mem_iff, h, (sortKeys_perm b).mem_iff]
  · intro h
    have hp : a.Perm b := (List.perm_ext_iff_of_nodup ha hb).mpr h
    exact List.Perm.eq_of_pairwise (fun x y _ _ => String.le_antisymm) (pairwise_sortKeys a)
      (pairwise_sortKeys b) (((sortKeys_perm a).trans hp).trans (sortKeys_perm b).symm)

theorem compact_names_inj {a b : List String}
    (h : compact (.array (a.map .string)) = compact (.array (b.map .string))) : a = b := by
  have hstring : Function.Injective Json.string := fun _ _ => string.inj
  exact List.map_injective_iff.mpr hstring (array.inj (compact_injective h))

theorem signature_object_eq_iff {ms ns : List (String × Json)} (hm : (Members.keys ms).Nodup)
    (hn : (Members.keys ns).Nodup) : signature (.object ms) = signature (.object ns) ↔
      ∀ k, k ∈ Members.keys ms ↔ k ∈ Members.keys ns := by
  rw [← sortKeys_eq_iff hm hn]
  constructor
  · intro h
    exact compact_names_inj (String.append_right_inj _ |>.mp h)
  · intro h
    simp only [signature, h]

theorem signature_object_ne {ms : List (String × Json)} {v : Json} (h : v.isObject = false) :
    signature v ≠ signature (.object ms) := by
  have hk : ∀ s t : String, "value:" ++ s ≠ "keys:" ++ t := by
    intro s t he
    have := congrArg String.toList he
    simp at this
  cases v with
  | object _ => simp [isObject] at h
  | _ => exact hk _ _

theorem signature_inj {v w : Json} (hv : v.isObject = false) (hw : w.isObject = false)
    (h : signature v = signature w) : v = w := by
  have hvalue {v : Json} (hv : v.isObject = false) : signature v = "value:" ++ v.compact := by
    cases v with
    | object _ => cases hv
    | _ => rfl
  rw [hvalue hv, hvalue hw] at h
  exact compact_injective ((String.append_right_inj _).mp h)

/-- Two values have one signature if they are objects with one set of names, or no objects and the
same value. -/
theorem signature_eq_iff {v w : Json} (hv : v.Distinct) (hw : w.Distinct) :
    signature v = signature w ↔
      (∃ ms ns, v = .object ms ∧ w = .object ns ∧
        ∀ k, k ∈ Members.keys ms ↔ k ∈ Members.keys ns) ∨
      (v.isObject = false ∧ w.isObject = false ∧ v = w) := by
  constructor
  · intro h
    cases hv' : v.isObject with
    | true =>
      obtain ⟨ms, rfl⟩ := exists_of_isObject hv'
      cases hw' : w.isObject with
      | true =>
        obtain ⟨ns, rfl⟩ := exists_of_isObject hw'
        exact .inl ⟨ms, ns, rfl, rfl, (signature_object_eq_iff hv.keys hw.keys).mp h⟩
      | false => exact absurd h.symm (signature_object_ne hw')
    | false =>
      cases hw' : w.isObject with
      | true =>
        obtain ⟨ns, rfl⟩ := exists_of_isObject hw'
        exact absurd h (signature_object_ne hv')
      | false => exact .inr ⟨rfl, rfl, signature_inj hv' hw' h⟩
  · rintro (⟨ms, ns, rfl, rfl, h⟩ | ⟨-, -, rfl⟩)
    · exact (signature_object_eq_iff hv.keys hw.keys).mpr h
    · rfl

def pair : Json := .object [("b", .null), ("a", .bool true)]

def quotedPair : Json := .object [("a\",\"b", .null)]

def pairNames : Json := .array [.string "a", .string "b"]

def zeros : Json := .array [.number (.double Extended.zero), .number (.double Extended.zero)]

def signedZeros : Json :=
  .array [.number (.double Extended.zero), .number (.double Extended.zero.neg)]

theorem signature_eq_iff_pair :
    (pair.Distinct ∧ quotedPair.Distinct ∧ pairNames.Distinct) ∧
      (zeros.Distinct ∧ signedZeros.Distinct) ∧
      signature pair = signature (.object [("a", .string ""), ("b", .array [])]) ∧
      signature pair ≠ signature quotedPair ∧ signature pair ≠ signature pairNames ∧
      signature zeros ≠ signature signedZeros := by
  have hpair : pair.Distinct := by decide
  have hquoted : quotedPair.Distinct := by decide
  have hnames : pairNames.Distinct := by decide
  have hzeros : zeros.Distinct := by decide
  have hsigned : signedZeros.Distinct := by decide
  refine ⟨⟨hpair, hquoted, hnames⟩, ⟨hzeros, hsigned⟩, ?_, fun h => ?_, fun h => ?_, fun h => ?_⟩
  · refine (signature_eq_iff hpair (by decide)).mpr (.inl ⟨_, _, rfl, rfl, fun k => ?_⟩)
    simp [Members.keys, or_comm]
  · obtain ⟨ms, ns, hms, hns, hk⟩ | ⟨hobject, -⟩ := (signature_eq_iff hpair hquoted).mp h
    · obtain rfl := object.inj hms
      obtain rfl := object.inj hns
      exact absurd ((hk "a").mp (by decide)) (by decide)
    · cases hobject
  · obtain ⟨ms, ns, -, hns, -⟩ | ⟨hobject, -⟩ := (signature_eq_iff hpair hnames).mp h
    · cases hns
    · cases hobject
  · obtain ⟨ms, ns, hms, -⟩ | ⟨-, -, heq⟩ := (signature_eq_iff hzeros hsigned).mp h
    · cases hms
    · simp only [zeros, signedZeros, array.injEq, List.cons.injEq, number.injEq,
        JsonNumber.double.injEq] at heq
      exact absurd heq.2.1 (by decide)

theorem signature_beq {first : List (String × Json)} {v : Json}
    (hf : (Members.keys first).Nodup) (hv : v.Distinct) :
    (signature v == signature (.object first)) = hasNames (Members.keys first) v := by
  rw [Bool.eq_iff_iff, beq_iff_eq, hasNames_iff]
  cases v with
  | object members =>
    rw [signature_object_eq_iff hv.keys hf]
    simp
  | _ => simpa using signature_object_ne rfl

/-- Items that begin with an object are alike exactly when they are homogeneous. -/
theorem alike_eq_homogeneous {first : List (String × Json)} {rest : List Json}
    (hd : (Json.array (.object first :: rest)).Distinct) :
    alike (.object first :: rest) = homogeneous (.object first :: rest) := by
  have hf : (Members.keys first).Nodup := (hd.item (by simp)).keys
  simp only [alike, homogeneous]
  rw [Bool.eq_iff_iff, List.all_eq_true, List.all_eq_true]
  refine forall₂_congr fun v hv => ?_
  rw [signature_beq hf (hd.item (List.mem_cons_of_mem _ hv))]

/-- Once an object has members, only a wider one replaces it. -/
theorem selectFrom_of_le {widest : Nat} (hw : widest ≠ 0) (i : Nat) (selected : Option Nat)
    {items : List Json}
    (h : ∀ v ∈ items, ∀ members, v = .object members → members.length ≤ widest) :
    selectFrom i widest selected items = selected := by
  induction items generalizing i with
  | nil => rfl
  | cons v rest ih =>
    have hrest := ih (i + 1) fun w hw => h w (List.mem_cons_of_mem v hw)
    cases v with
    | object members =>
      have := h _ (by simp) members rfl
      rw [selectFrom, if_neg (by omega), hrest]
    | _ => exact hrest

/-- While no object has members, the last one is selected. -/
theorem selectFrom_of_empty (i : Nat) {items : List Json} (h : ∀ v ∈ items, v = .object []) :
    selectFrom (i + 1) 0 (some i) items = some (i + items.length) := by
  induction items generalizing i with
  | nil => rfl
  | cons v rest ih =>
    obtain rfl := h v (by simp)
    rw [selectFrom, if_pos (.inl rfl), List.length_nil,
      ih (i + 1) fun w hw => h w (List.mem_cons_of_mem _ hw), List.length_cons]
    congr 1
    omega

/-- The item that stands for homogeneous items equals the first. -/
theorem representative_of_homogeneous {first : List (String × Json)} {rest : List Json}
    (hd : (Json.array (.object first :: rest)).Distinct)
    (h : homogeneous (.object first :: rest) = true) :
    ∃ r, representative (.object first :: rest) = some r ∧
      (Json.object first :: rest)[r]? = some (.object first) := by
  have hf : (Members.keys first).Nodup := (hd.item (by simp)).keys
  have hwidth : ∀ v ∈ rest, ∃ members, v = .object members ∧ members.length = first.length := by
    intro v hv
    obtain ⟨members, rfl, hk⟩ := hasNames_iff.mp (List.all_eq_true.mp h v hv)
    have hm := (hd.item (List.mem_cons_of_mem _ hv)).keys
    have hlen := ((List.perm_ext_iff_of_nodup hm hf).mpr hk).length_eq
    exact ⟨members, rfl, by simpa [Members.keys] using hlen⟩
  by_cases he : first = []
  · subst he
    have hrest : ∀ v ∈ rest, v = .object [] := by
      intro v hv
      obtain ⟨members, rfl, hlen⟩ := hwidth v hv
      rw [List.length_eq_zero_iff.mp hlen]
    refine ⟨rest.length, ?_, ?_⟩
    · rw [representative, selectFrom, if_pos (.inl rfl), List.length_nil,
        selectFrom_of_empty 0 hrest, Nat.zero_add]
    · cases hr : rest.length with
      | zero => rfl
      | succ n =>
        have hn : n < rest.length := by omega
        rw [List.getElem?_cons_succ, List.getElem?_eq_getElem hn]
        exact congrArg some (hrest _ (List.getElem_mem hn))
  · have hw : first.length ≠ 0 := fun h0 => he (List.length_eq_zero_iff.mp h0)
    refine ⟨0, ?_, rfl⟩
    rw [representative, selectFrom, if_pos (.inl rfl)]
    apply selectFrom_of_le hw
    rintro v hv members rfl
    obtain ⟨_, hm, hlen⟩ := hwidth _ hv
    cases hm
    omega

end SchemaByExample.Similarity
