import SchemaByExample.Shape.Similarity
import SchemaByExample.Proofs.Json.Parts

/-! The item that stands for all. The scan of the items has two phases. While the objects seen
have no members, it selects the last of them; from the first object with members on, it selects
the first of the widest. Items of other kinds and empty objects behind a wider one do not matter. -/
namespace SchemaByExample.Similarity

open Json

variable {items seen : List Json} {v : Json} {i j widest : Nat} {selected : Option Nat}
  {members others : List (String × Json)}

def ObjectAt (items : List Json) (i : Nat) (members : List (String × Json)) : Prop :=
  items[i]? = some (.object members)

/-- The object at place `i` stands for the items: it is the last of all objects if none has
members, and else the first of those that have the most. -/
inductive StandsForAll (items : List Json) (i : Nat) : List (String × Json) → Prop
  | last : ObjectAt items i [] →
      (∀ j others, ObjectAt items j others → others = [] ∧ j ≤ i) → StandsForAll items i []
  | widest {members : List (String × Json)} : members ≠ [] → ObjectAt items i members →
      (∀ j others, ObjectAt items j others →
        others.length ≤ members.length ∧ (j < i → others.length < members.length)) →
      StandsForAll items i members

theorem exists_objectAt_iff :
    (∃ i members, ObjectAt items i members) ↔ ∃ v ∈ items, v.isObject = true := by
  constructor
  · intro h
    obtain ⟨i, members, h⟩ := h
    exact ⟨_, List.mem_of_getElem? h, rfl⟩
  · intro h
    obtain ⟨v, hv, hobject⟩ := h
    obtain ⟨members, rfl⟩ := exists_of_isObject hobject
    obtain ⟨i, hi⟩ := List.getElem?_of_mem hv
    exact ⟨i, members, hi⟩

theorem objectAt_append_iff : ObjectAt (seen ++ [v]) j others ↔
    ObjectAt seen j others ∨ (j = seen.length ∧ v = .object others) := by
  simp only [ObjectAt, List.getElem?_append]
  by_cases hlt : j < seen.length
  · have hne : j ≠ seen.length := Nat.ne_of_lt hlt
    simp [hlt, hne]
  · by_cases heq : j = seen.length
    · simp [heq]
    · have hlast : ([v] : List Json)[j - seen.length]? = none :=
        List.getElem?_eq_none (by simp only [List.length_singleton]; omega)
      simp [hlt, heq, hlast]

theorem ObjectAt.lt (h : ObjectAt items i members) : i < items.length :=
  (List.getElem?_eq_some_iff.mp h).1

theorem ObjectAt.append (h : ObjectAt seen i members) (v : Json) :
    ObjectAt (seen ++ [v]) i members := objectAt_append_iff.mpr (.inl h)

theorem objectAt_new (seen : List Json) (members : List (String × Json)) :
    ObjectAt (seen ++ [.object members]) seen.length members :=
  objectAt_append_iff.mpr (.inr ⟨rfl, rfl⟩)

namespace StandsForAll

theorem objectAt (h : StandsForAll items i members) : ObjectAt items i members := by
  cases h with
  | last hi _ => exact hi
  | widest _ hi _ => exact hi

/-- No object is wider. -/
theorem length_le (h : StandsForAll items i members) (hj : ObjectAt items j others) :
    others.length ≤ members.length := by
  cases h with
  | last _ hall =>
    obtain rfl := (hall j others hj).1
    exact Nat.le_refl _
  | widest _ _ hall => exact (hall j others hj).1

/-- One object at most stands for the items. -/
theorem unique (hi : StandsForAll items i members) (hj : StandsForAll items j others) :
    i = j := by
  have hlen : members.length = others.length :=
    Nat.le_antisymm (hj.length_le hi.objectAt) (hi.length_le hj.objectAt)
  cases hi with
  | last _ halli =>
    cases hj with
    | last hatj hallj =>
      have hji := (halli j [] hatj).2
      have hij := (hallj i [] ‹_›).2
      omega
    | widest hne _ _ => exact absurd (List.length_eq_zero_iff.mp hlen.symm) hne
  | widest hne hati halli =>
    cases hj with
    | last _ _ => exact absurd (List.length_eq_zero_iff.mp hlen) hne
    | widest _ hatj hallj =>
      have hji := (halli j others hatj).2
      have hij := (hallj i members hati).2
      omega

end StandsForAll

/-- What the scan holds behind the items seen: the width and the place of the object that stands
for them, if there is one. -/
inductive Scanned (seen : List Json) : Nat → Option Nat → Prop
  | nothing : (∀ j others, ¬ObjectAt seen j others) → Scanned seen 0 none
  | object {i : Nat} {members : List (String × Json)} : StandsForAll seen i members →
      Scanned seen members.length (some i)

namespace Scanned

/-- A value that is no object changes nothing. -/
theorem skip (hv : v.isObject = false) (h : Scanned seen widest selected) :
    Scanned (seen ++ [v]) widest selected := by
  have hold (j : Nat) (others : List (String × Json)) (hj : ObjectAt (seen ++ [v]) j others) :
      ObjectAt seen j others := by
    obtain hj | ⟨-, rfl⟩ := objectAt_append_iff.mp hj
    · exact hj
    · cases hv
  cases h with
  | nothing hnone => exact .nothing fun j others hj => hnone j others (hold j others hj)
  | object hi =>
    cases hi with
    | last hat hall =>
      exact .object (.last (hat.append v) fun j others hj => hall j others (hold j others hj))
    | widest hne hat hall =>
      exact .object (.widest hne (hat.append v) fun j others hj =>
        hall j others (hold j others hj))

/-- An object that is not wider than one with members changes nothing. -/
theorem keep (hwidest : widest ≠ 0) (hle : others.length ≤ widest)
    (h : Scanned seen widest selected) : Scanned (seen ++ [.object others]) widest selected := by
  cases h with
  | nothing _ => exact absurd rfl hwidest
  | object hi =>
    cases hi with
    | last _ _ => exact absurd rfl hwidest
    | widest hne hat hall =>
      refine .object (.widest hne (hat.append _) fun j ms hj => ?_)
      obtain hj | ⟨rfl, hms⟩ := objectAt_append_iff.mp hj
      · exact hall j ms hj
      · cases hms
        exact ⟨hle, fun hlt => absurd hat.lt (Nat.lt_asymm hlt)⟩

/-- An object that is wider than all before it stands for the items up to it. -/
theorem take_wider (hne : members ≠ [])
    (hall : ∀ j others, ObjectAt seen j others → others.length < members.length) :
    Scanned (seen ++ [.object members]) members.length (some seen.length) := by
  refine .object (.widest hne (objectAt_new seen members) fun j others hj => ?_)
  obtain hj | ⟨rfl, hothers⟩ := objectAt_append_iff.mp hj
  · have hlt := hall j others hj
    exact ⟨Nat.le_of_lt hlt, fun _ => hlt⟩
  · cases hothers
    exact ⟨Nat.le_refl _, fun hlt => absurd hlt (Nat.lt_irrefl _)⟩

/-- An empty object behind empty objects stands for all of them. -/
theorem take_empty (hall : ∀ j others, ObjectAt seen j others → others = []) :
    Scanned (seen ++ [.object []]) 0 (some seen.length) := by
  refine .object (.last (objectAt_new seen []) fun j others hj => ?_)
  obtain hj | ⟨rfl, hothers⟩ := objectAt_append_iff.mp hj
  · exact ⟨hall j others hj, Nat.le_of_lt hj.lt⟩
  · cases hothers
    exact ⟨rfl, Nat.le_refl _⟩

theorem length_le (h : Scanned seen widest selected) (hj : ObjectAt seen j others) :
    others.length ≤ widest := by
  cases h with
  | nothing hnone => exact absurd hj (hnone j others)
  | object hi => exact hi.length_le hj

/-- While the widest object has no members any object takes its place, and later a wider one. -/
theorem take (hwider : widest = 0 ∨ widest < members.length)
    (h : Scanned seen widest selected) :
    Scanned (seen ++ [.object members]) members.length (some seen.length) := by
  by_cases hne : members = []
  · subst hne
    have hzero : widest = 0 := hwider.resolve_right (Nat.not_lt_zero _)
    refine take_empty fun j others hj => ?_
    have hlen := h.length_le hj
    exact List.length_eq_zero_iff.mp (by omega)
  · have hpos : 0 < members.length := List.length_pos_iff.mpr hne
    refine take_wider hne fun j others hj => ?_
    have hlen := h.length_le hj
    omega

/-- The scan goes on from what it holds behind the items seen. -/
theorem selectFrom (items : List Json) (h : Scanned seen widest selected) :
    ∃ width, Scanned (seen ++ items) width
      (Similarity.selectFrom seen.length widest selected items) := by
  induction items generalizing seen widest selected with
  | nil => exact ⟨widest, by rwa [List.append_nil]⟩
  | cons v rest ih =>
    have hlength : (seen ++ [v]).length = seen.length + 1 := List.length_append
    have hnext {widest : Nat} {selected : Option Nat}
        (hstep : Scanned (seen ++ [v]) widest selected) : ∃ width, Scanned (seen ++ v :: rest) width
          (Similarity.selectFrom (seen.length + 1) widest selected rest) := by
      rw [List.append_cons, ← hlength]
      exact ih hstep
    cases v with
    | object members =>
      rw [Similarity.selectFrom]
      by_cases hwider : widest = 0 ∨ widest < members.length
      · rw [if_pos hwider]
        exact hnext (h.take hwider)
      · rw [if_neg hwider]
        exact hnext (h.keep (by omega) (by omega))
    | _ => exact hnext (h.skip rfl)

end Scanned

theorem scanned_representative (items : List Json) :
    ∃ width, Scanned items width (representative items) := by
  have hstart : Scanned [] 0 none := .nothing fun j others hj => absurd hj.lt (Nat.not_lt_zero j)
  exact hstart.selectFrom items

theorem representative_eq_none_iff :
    representative items = none ↔ ∀ v ∈ items, v.isObject = false := by
  have hobjects : (∀ v ∈ items, v.isObject = false) ↔ ∀ i members, ¬ObjectAt items i members := by
    have hexists := not_congr (@exists_objectAt_iff items)
    simp only [not_exists, not_and, Bool.not_eq_true] at hexists
    exact hexists.symm
  obtain ⟨width, h⟩ := scanned_representative items
  rw [hobjects]
  generalize representative items = selected at h
  cases h with
  | nothing hnone => exact iff_of_true rfl hnone
  | object hi => exact iff_of_false (by simp) fun hnone => hnone _ _ hi.objectAt

theorem representative_eq_some_iff :
    representative items = some i ↔ ∃ members, StandsForAll items i members := by
  obtain ⟨width, h⟩ := scanned_representative items
  generalize representative items = selected at h
  cases h with
  | nothing hnone =>
    refine iff_of_false (by simp) fun hi => ?_
    obtain ⟨members, hi⟩ := hi
    exact hnone _ _ hi.objectAt
  | @object j members hj =>
    constructor
    · intro h
      exact ⟨members, Option.some.inj h ▸ hj⟩
    · intro hi
      obtain ⟨others, hi⟩ := hi
      exact congrArg some (hj.unique hi)

theorem alike_iff : alike items = true ↔
    items ≠ [] ∧ ∀ v ∈ items, ∀ w ∈ items, signature v = signature w := by
  cases items with
  | nil => simp [alike]
  | cons v rest =>
    simp only [alike, List.all_eq_true, beq_iff_eq]
    constructor
    · intro h
      have hfirst : ∀ w ∈ v :: rest, signature w = signature v := by
        intro w hw
        cases hw with
        | head => rfl
        | tail _ hw => exact h w hw
      exact ⟨List.cons_ne_nil v rest, fun x hx w hw => (hfirst x hx).trans (hfirst w hw).symm⟩
    · intro h w hw
      exact h.2 w (List.mem_cons_of_mem v hw) v List.mem_cons_self

/-- Items are alike if there are any and all have one signature. Alike or not, they have an object
that stands for them unless there is no object: the last if all objects are empty, and else the
first of the widest. -/
theorem alike_and_representative (items : List Json) :
    (alike items = true ↔
      items ≠ [] ∧ ∀ v ∈ items, ∀ w ∈ items, signature v = signature w) ∧
    (representative items = none ↔ ∀ v ∈ items, v.isObject = false) ∧
    ∀ i, representative items = some i ↔ ∃ members, StandsForAll items i members :=
  ⟨alike_iff, representative_eq_none_iff, fun _ => representative_eq_some_iff⟩

/-- Two of the widest, an empty object before and behind them, and values of other kinds. -/
example : representative [.null, .object [], .object [("a", .null)], .array [],
    .object [("b", .null)], .object []] = some 2 := by decide

end SchemaByExample.Similarity
