import SchemaByExample.Proofs.Json.Written

/-! Reading the texts of arrays and objects. The only thing that can go wrong is that a value
nests too many containers, and so a step is described by its result and by the condition
under which there is one. -/
namespace SchemaByExample.Read

open Json Literal

variable {α β : Type}

/-- The step gives a result if `fits` holds, and else it fails for want of depth. -/
structure Yields (fits : Prop) (step : Except Failure α) (result : α) : Prop where
  ok : fits → step = .ok result
  limit : ¬fits → ∃ f, step = .error f ∧ f.cause = .recursionLimit

namespace Yields

variable {p q : Prop} {x : Except Failure α} {a : α}

theorem of_eq (h : x = .ok a) : Yields True x a := ⟨fun _ => h, fun hn => absurd trivial hn⟩

theorem congr (h : Yields p x a) (hpq : p ↔ q) : Yields q x a :=
  ⟨fun hq => h.ok (hpq.mpr hq), fun hq => h.limit fun hp => hq (hpq.mp hp)⟩

/-- One step after the other: the first to fail for want of depth ends the whole. -/
theorem bind {g : α → Except Failure β} {b : β} (h : Yields p x a) (hg : Yields q (g a) b) :
    Yields (p ∧ q) (x >>= g) b := by
  constructor
  · rintro ⟨hp, hq⟩
    rw [h.ok hp]
    exact hg.ok hq
  · intro hpq
    by_cases hp : p
    · rw [h.ok hp]
      exact hg.limit fun hq => hpq ⟨hp, hq⟩
    · obtain ⟨f, hf, hc⟩ := h.limit hp
      exact ⟨f, by rw [hf]; rfl, hc⟩

/-- A step behind which nothing fails. -/
theorem bind_ok {g : α → Except Failure β} {b : β} (h : Yields p x a) (hg : g a = .ok b) :
    Yields p (x >>= g) b := (h.bind (of_eq hg)).congr (and_iff_left trivial)

theorem inside (segment : Segment) (h : Yields p x a) : Yields p (Read.inside segment x) a := by
  constructor
  · intro hp
    rw [h.ok hp]
    rfl
  · intro hp
    obtain ⟨f, hf, hc⟩ := h.limit hp
    exact ⟨{ f with path := segment :: f.path }, by rw [hf]; rfl, hc⟩

end Yields

theorem skipBlanks_append {bl : Bytes} (h : Blanks bl) (bytes : Bytes) :
    skipBlanks (bl ++ bytes) = skipBlanks bytes := List.dropWhile_append_of_pos h

theorem nextItem_cons {first : Bool} {front : Bytes} (hs : Separates first front) {b : UInt8}
    (hb : isBlank b = false) (hne : b ≠ byte ']') (rest : Bytes) :
    nextItem first (front ++ b :: rest) = .ok (true, b :: rest) := by
  cases hs with
  | first hbl =>
    simp only [nextItem, skipBlanks_append hbl, skipBlanks_cons hb, if_neg hne, if_true]
  | next hbl hbl' =>
    have hcomma : isBlank (byte ',') = false := by decide
    have hclose : byte ',' ≠ byte ']' := by decide
    simp only [nextItem, List.append_assoc, List.cons_append, skipBlanks_append hbl,
      skipBlanks_cons hcomma, if_neg hclose, Bool.false_eq_true, if_false, if_true,
      skipBlanks_append hbl', skipBlanks_cons hb, if_neg hne]

theorem nextItem_item {first : Bool} {front text : Bytes} (hs : Separates first front)
    {v : Json} (hv : Written v text) (rest : Bytes) :
    nextItem first (front ++ (text ++ rest)) = .ok (true, text ++ rest) := by
  obtain ⟨b, t, rfl, ho⟩ := opens_of_written hv
  obtain ⟨hb, hne, -⟩ := of_opens ho
  exact nextItem_cons hs hb hne (t ++ rest)

theorem nextItem_close (first : Bool) {bl : Bytes} (h : Blanks bl) (rest : Bytes) :
    nextItem first (bl ++ byte ']' :: rest) = .ok (false, byte ']' :: rest) := by
  have hclose : isBlank (byte ']') = false := by decide
  simp only [nextItem, skipBlanks_append h, skipBlanks_cons hclose, if_true]

theorem endArray_close (rest : Bytes) : endArray (byte ']' :: rest) = .ok ((), rest) := by
  have hclose : isBlank (byte ']') = false := by decide
  simp only [endArray, skipBlanks_cons hclose, if_true]

theorem nextMember_member {first : Bool} {front rest : Bytes} (hs : Separates first front) :
    nextMember first (front ++ byte '"' :: rest) = .ok (true, byte '"' :: rest) := by
  have hquote : isBlank (byte '"') = false := by decide
  have hne : byte '"' ≠ byte '\x7d' := by decide
  cases hs with
  | first hbl =>
    simp only [nextMember, skipBlanks_append hbl, skipBlanks_cons hquote, if_neg hne, if_true]
  | next hbl hbl' =>
    have hcomma : isBlank (byte ',') = false := by decide
    have hclose : byte ',' ≠ byte '\x7d' := by decide
    simp only [nextMember, List.append_assoc, List.cons_append, skipBlanks_append hbl,
      skipBlanks_cons hcomma, if_neg hclose, Bool.false_eq_true, if_false, if_true,
      skipBlanks_append hbl', skipBlanks_cons hquote]

theorem nextKey_cons {first : Bool} {front : Bytes} (hs : Separates first front) {k : String}
    {bytes rest : Bytes} (hk : string bytes = .ok (k, rest)) :
    nextKey first (front ++ byte '"' :: bytes) = .ok (some k, rest) := by
  rw [nextKey, nextMember_member hs]
  simp only [bind, Except.bind, if_true, List.drop_succ_cons, List.drop_zero, hk]
  rfl

theorem nextKey_member {first : Bool} {front : Bytes} (hs : Separates first front) (k : String)
    (rest : Bytes) :
    nextKey first (front ++ (Utf8.encode (quote k) ++ rest)) = .ok (some k, rest) := by
  have hk := string_quote k rest
  rw [encode_quote] at hk ⊢
  exact nextKey_cons hs hk

theorem nextKey_close (first : Bool) {bl : Bytes} (h : Blanks bl) (rest : Bytes) :
    nextKey first (bl ++ byte '\x7d' :: rest) = .ok (none, byte '\x7d' :: rest) := by
  have hclose : isBlank (byte '\x7d') = false := by decide
  simp only [nextKey, nextMember, skipBlanks_append h, skipBlanks_cons hclose, if_true]
  rfl

theorem colon_blanks {bl : Bytes} (h : Blanks bl) (rest : Bytes) :
    colon (bl ++ byte ':' :: rest) = .ok ((), rest) := by
  have hcolon : isBlank (byte ':') = false := by decide
  simp only [colon, skipBlanks_append h, skipBlanks_cons hcolon, if_true]

theorem endsValue_append {b : UInt8} (hb : endsValue [b] = true) {bl : Bytes} (h : Blanks bl)
    (rest : Bytes) : endsValue (bl ++ b :: rest) = true := by
  cases bl with
  | nil => exact hb
  | cons c bl => simp [endsValue, h c (by simp)]

theorem endsValue_items {items : List Json} {more : Bytes} (h : WrittenItems false items more)
    (rest : Bytes) : endsValue (more ++ rest) = true := by
  cases h with
  | nil hbl =>
    rw [List.append_assoc]
    exact endsValue_append (by decide) hbl rest
  | cons hs =>
    cases hs with
    | next hbl hbl' =>
      simp only [List.append_assoc, List.cons_append]
      exact endsValue_append (by decide) hbl _

theorem endsValue_members {members : List (String × Json)} {more : Bytes}
    (h : WrittenMembers false members more) (rest : Bytes) :
    endsValue (more ++ rest) = true := by
  cases h with
  | nil hbl =>
    rw [List.append_assoc]
    exact endsValue_append (by decide) hbl rest
  | cons k hs =>
    cases hs with
    | next hbl hbl' =>
      simp only [List.append_assoc, List.cons_append]
      exact endsValue_append (by decide) hbl _

theorem ok_bind (a : α) (f : α → Except Failure β) : (Except.ok a >>= f) = f a := rfl

/-- The reader takes every text of a value for the same result, whatever stands behind it. -/
def Reads (value : Bytes → Except Failure (α × Bytes)) (v : Json) (fits : Prop) (result : α) :
    Prop :=
  ∀ ⦃bl text rest : Bytes⦄, Blanks bl → Written v text → endsValue rest = true →
    Yields fits (value (bl ++ (text ++ rest))) (result, rest)

section Items

variable {ι : Type} {value : Bytes → Except Failure (α × Bytes)} {source : ι → Json}
  {fits : ι → Prop} {result : ι → α}

theorem length_lt_of_items {items : List Json} {first : Bool} {text : Bytes}
    (hw : WrittenItems first items text) : items.length < text.length := by
  induction items generalizing first text with
  | nil =>
    cases hw
    simp
  | cons v items ih =>
    cases hw with
    | cons hs hv hmore =>
      obtain ⟨b, t, rfl, -⟩ := opens_of_written hv
      have := ih hmore
      simp only [List.length_append, List.length_cons]
      omega

theorem length_lt_of_members {members : List (String × Json)} {first : Bool} {text : Bytes}
    (hw : WrittenMembers first members text) : members.length < text.length := by
  induction members generalizing first text with
  | nil =>
    cases hw
    simp
  | cons m members ih =>
    cases hw with
    | cons k hs hbl hbl' hv hmore =>
      have := ih hmore
      simp only [List.length_append, List.length_cons]
      omega

/-- The items of an array, one after the other. -/
theorem items_written {xs : List ι} (h : ∀ x ∈ xs, Reads value (source x) (fits x) (result x))
    {first : Bool} {text : Bytes} (hw : WrittenItems first (xs.map source) text) (rest : Bytes)
    {fuel : Nat} (i : Nat) (hf : xs.length < fuel) :
    Yields (∀ x ∈ xs, fits x) (items value fuel i first (text ++ rest))
      (xs.map result, byte ']' :: rest) := by
  induction xs generalizing first text fuel i with
  | nil =>
    obtain ⟨fuel, rfl⟩ := Nat.exists_eq_add_one_of_ne_zero (Nat.ne_zero_of_lt hf)
    cases hw with
    | nil hbl =>
      refine (Yields.of_eq ?_).congr (by simp)
      rw [List.append_assoc, List.singleton_append, items, nextItem_close first hbl]
      rfl
  | cons x xs ih =>
    obtain ⟨fuel, rfl⟩ := Nat.exists_eq_add_one_of_ne_zero (Nat.ne_zero_of_lt hf)
    obtain ⟨hx, hxs⟩ := List.forall_mem_cons.mp h
    cases hw with
    | cons hs hv hmore =>
      have hfuel : xs.length < fuel := by simpa using hf
      have hrest := ih hxs hmore (i + 1) hfuel
      have hitem := (hx .nil hv (endsValue_items hmore rest)).inside (.index i)
      simp only [List.append_assoc, items, nextItem_item hs hv, ok_bind, if_true]
      refine (hitem.bind ?_).congr (List.forall_mem_cons (p := fits)).symm
      exact hrest.bind_ok rfl

/-- An array behind its opening bracket. -/
theorem array_written {xs : List ι} (h : ∀ x ∈ xs, Reads value (source x) (fits x) (result x))
    {text : Bytes} (hw : WrittenItems true (xs.map source) text) (rest : Bytes) :
    Yields (∀ x ∈ xs, fits x) (array value (text ++ rest)) (xs.map result, rest) := by
  have hlen := length_lt_of_items hw
  have hfuel : xs.length < (text ++ rest).length + 1 := by
    rw [List.length_map] at hlen
    rw [List.length_append]
    omega
  refine (items_written h hw rest 0 hfuel).bind_ok ?_
  simp only [endArray_close, ok_bind]

end Items

section Members

variable {ι : Type} {value : Bytes → Except Failure (α × Bytes)} {source : String × ι → Json}
  {fits : String × ι → Prop} {result : String × ι → α}

theorem members_written {ps : List (String × ι)}
    (h : ∀ p ∈ ps, Reads value (source p) (fits p) (result p)) {first : Bool} {text : Bytes}
    (hw : WrittenMembers first (ps.map fun p => (p.1, source p)) text) (rest : Bytes)
    {fuel : Nat} (hf : ps.length < fuel) :
    Yields (∀ p ∈ ps, fits p) (members value fuel first (text ++ rest))
      (ps.map fun p => (p.1, result p), byte '\x7d' :: rest) := by
  induction ps generalizing first text fuel with
  | nil =>
    obtain ⟨fuel, rfl⟩ := Nat.exists_eq_add_one_of_ne_zero (Nat.ne_zero_of_lt hf)
    cases hw with
    | nil hbl =>
      refine (Yields.of_eq ?_).congr (by simp)
      rw [List.append_assoc, List.singleton_append, members, nextKey_close first hbl]
      rfl
  | cons p ps ih =>
    obtain ⟨fuel, rfl⟩ := Nat.exists_eq_add_one_of_ne_zero (Nat.ne_zero_of_lt hf)
    obtain ⟨hp, hps⟩ := List.forall_mem_cons.mp h
    cases hw with
    | cons k hs hbl hbl' hv hmore =>
      have hfuel : ps.length < fuel := by simpa using hf
      have hrest := ih hps hmore hfuel
      have hvalue := (hp hbl' hv (endsValue_members hmore rest)).inside (.key p.1)
      simp only [List.append_assoc, List.cons_append, members, nextKey_member hs, ok_bind,
        colon_blanks hbl]
      refine (hvalue.bind ?_).congr (List.forall_mem_cons (p := fits)).symm
      exact hrest.bind_ok rfl

/-- An object behind its opening brace. -/
theorem object_written {ps : List (String × ι)}
    (h : ∀ p ∈ ps, Reads value (source p) (fits p) (result p)) {text : Bytes}
    (hw : WrittenMembers true (ps.map fun p => (p.1, source p)) text) (rest : Bytes) :
    Yields (∀ p ∈ ps, fits p) (object value (text ++ rest))
      (Members.ofPairs (ps.map fun p => (p.1, result p)), rest) := by
  have hlen := length_lt_of_members hw
  have hfuel : ps.length < (text ++ rest).length + 1 := by
    rw [List.length_map] at hlen
    rw [List.length_append]
    omega
  exact (members_written h hw rest hfuel).bind_ok rfl

end Members

end SchemaByExample.Read
