import SchemaByExample.Proofs.Json.TypedReading
import SchemaByExample.Proofs.Json.Verbatim

/-! Readers of values of one type take exactly the texts whose trees stand for such a value, as
far as they nest no more containers than the budget. -/
namespace SchemaByExample.Read

open Json Literal

variable {α : Type}

/-- The reader gives a result for a text, with anything behind it that may follow a value, if
the tree of the text stands for the result and fits the budget, and for nothing else. -/
structure Decodes (budget : Nat) (means : Json → α → Prop)
    (value : Bytes → Except Failure (α × Bytes)) : Prop where
  blanks : ∀ {bl : Bytes}, Blanks bl → ∀ bytes, value (bl ++ bytes) = value bytes
  complete : ∀ {text v a rest}, Verbatim text v → means v a → v.depth ≤ budget →
    endsValue rest = true → value (Utf8.encode text ++ rest) = .ok (a, rest)
  sound : ∀ {bytes a rest}, value bytes = .ok (a, rest) →
    ∃ v, Begins bytes v rest ∧ means v a ∧ v.depth ≤ budget

theorem Decodes.congr {budget : Nat} {means means' : Json → α → Prop}
    {value : Bytes → Except Failure (α × Bytes)} (h : Decodes budget means value)
    (hmeans : ∀ v a, means v a ↔ means' v a) : Decodes budget means' value where
  blanks := h.blanks
  complete hv ha := h.complete hv ((hmeans _ _).mpr ha)
  sound hread := by
    obtain ⟨v, hv, ha, hle⟩ := h.sound hread
    exact ⟨v, hv, (hmeans _ _).mp ha, hle⟩

/-! Scalars. -/

theorem decodes_null (budget : Nat) :
    Decodes budget (fun v (_ : Unit) => v = .null) Typed.null where
  blanks hbl bytes := by simp only [Typed.null, skipBlanks_append hbl]
  complete hv hnull _ _ := by
    subst hnull
    cases hv
    rfl
  sound h := by
    unfold Typed.null at h
    split at h
    · rename_i b tail hb
      split at h
      · rename_i hn
        subst hn
        exact ⟨_, (begins_word .null rfl h).behind hb, rfl, Nat.zero_le _⟩
      · exact absurd h refuse_ne_ok
    · cases h

theorem typedString_chars (expected : String) {body text : List Char} (h : Content body text)
    (rest : Bytes) :
    Typed.string expected (byte '"' :: (Utf8.encode body ++ byte '"' :: rest)) =
      .ok (String.ofList text, rest) := by
  have hquote : isBlank (byte '"') = false := by decide
  simp only [Typed.string, skipBlanks_cons hquote, if_true]
  exact string_chars h rest

/-- A string is told by its quotes, whatever stands behind it. -/
theorem exists_quoted {expected s : String} {bytes rest : Bytes}
    (h : Typed.string expected bytes = .ok (s, rest)) :
    ∃ bl body, Space bl ∧ Content body s.toList ∧
      bytes = Utf8.encode bl ++ byte '"' :: (Utf8.encode body ++ byte '"' :: rest) := by
  unfold Typed.string at h
  split at h
  · rename_i b tail hb
    split at h
    · rename_i hquote
      subst hquote
      obtain ⟨bl, hbl, rfl⟩ := exists_space hb
      obtain ⟨body, hbody, rfl⟩ := exists_body h
      exact ⟨bl, body, hbl, hbody, rfl⟩
    · exact absurd h refuse_ne_ok
  · cases h

theorem decodes_string (expected : String) (budget : Nat) :
    Decodes budget (fun v s => v = .string s) (Typed.string expected) where
  blanks hbl bytes := by simp only [Typed.string, skipBlanks_append hbl]
  complete hv hs _ _ := by
    subst hs
    cases hv with
    | string hbody =>
      rw [encode_ascii_cons (by decide), Utf8.encode_append, List.cons_append, List.append_assoc]
      exact typedString_chars expected hbody _
  sound h := by
    obtain ⟨bl, body, hbl, hbody, rfl⟩ := exists_quoted h
    have hv := Verbatim.string hbody
    rw [String.ofList_toList] at hv
    refine ⟨_, ⟨bl, _, hbl, hv, ?_⟩, rfl, Nat.zero_le _⟩
    rw [encode_ascii_cons (by decide), Utf8.encode_append, List.cons_append, List.append_assoc]
    rfl

theorem decodes_bool (budget : Nat) : Decodes budget (fun v b => v = .bool b) Typed.bool where
  blanks hbl bytes := by simp only [Typed.bool, skipBlanks_append hbl]
  complete hv hb _ _ := by
    subst hb
    cases hv <;> rfl
  sound h := by
    unfold Typed.bool at h
    split at h
    · rename_i b tail hb
      split at h
      · rename_i ht
        simp only [bind_eq_ok, Prod.exists] at h
        obtain ⟨u, r, hident, h⟩ := h
        cases h
        subst ht
        exact ⟨_, (begins_word .true rfl hident).behind hb, rfl, Nat.zero_le _⟩
      · split at h
        · rename_i hf
          simp only [bind_eq_ok, Prod.exists] at h
          obtain ⟨u, r, hident, h⟩ := h
          cases h
          subst hf
          exact ⟨_, (begins_word .false rfl hident).behind hb, rfl, Nat.zero_le _⟩
        · exact absurd h refuse_ne_ok
    · cases h

theorem checkNatural_eq_ok_iff {m : JsonNumber} {n : UInt32} {bytes rest : Bytes} :
    Typed.checkNatural m bytes = .ok (n, rest) ↔ number m = natural n ∧ rest = bytes := by
  constructor
  · intro h
    refine ⟨?_, eq_of_checkNatural h⟩
    cases m with
    | word w =>
      rw [Typed.checkNatural] at h
      split at h
      · rename_i hle
        cases h
        obtain ⟨i, hlow, hhigh⟩ := w
        simp only [natural, number.injEq, JsonNumber.word.injEq, Word.mk.injEq]
        have hmod : i.toNat.toUInt32.toNat = i.toNat :=
          Nat.mod_eq_of_lt (by simp only at hle; omega)
        rw [hmod]
        simp only at hle
        omega
      · cases h
    | double x => cases h
  · rintro ⟨hm, rfl⟩
    have hlt : (n.toNat : Int) < 0x100000000 := by have := n.toNat_lt; omega
    cases hm
    rw [Typed.checkNatural, if_pos ⟨Int.natCast_nonneg _, hlt⟩]
    simp

theorem natural_chars (l : NumberLiteral) {m : JsonNumber} {n : UInt32} {rest : Bytes}
    (hvalue : l.value? = some m) (hm : Json.number m = natural n) (hr : endsValue rest = true) :
    Typed.natural (Utf8.encode l.chars ++ rest) = .ok (n, rest) := by
  have hread := number_chars l hvalue hr
  have hcheck : Typed.checkNatural m rest = .ok (n, rest) := checkNatural_eq_ok_iff.mpr ⟨hm, rfl⟩
  cases hnegative : l.negative with
  | true =>
    have hminus : isBlank (byte '-') = false := by decide
    rw [NumberLiteral.chars, if_pos hnegative, encode_ascii_cons (by decide), List.cons_append]
    rw [hnegative] at hread
    simp only [Typed.natural, skipBlanks_cons hminus, if_true, hread, ok_bind]
    exact hcheck
  | false =>
    obtain ⟨b, tail, hb, hdigit⟩ := digits_cons l.whole
      (Utf8.encode (fractionChars l.fraction ++ exponentChars l.exponent))
    obtain ⟨hblank, hminus⟩ := not_blank_of_isDigit hdigit
    have hcons : Utf8.encode l.unsigned = b :: tail := by
      rw [NumberLiteral.unsigned, Utf8.encode_append, hb]
    rw [NumberLiteral.chars, hnegative, if_neg Bool.false_ne_true]
    rw [hnegative, hcons, List.cons_append] at hread
    rw [hcons, List.cons_append]
    simp only [Typed.natural, skipBlanks_cons hblank, if_neg hminus, hdigit, if_true, hread,
      ok_bind]
    exact hcheck

theorem decodes_natural (budget : Nat) :
    Decodes budget (fun v n => v = .natural n) Typed.natural where
  blanks hbl bytes := by simp only [Typed.natural, skipBlanks_append hbl]
  complete := by
    intro text v n rest hv hn _ hr
    obtain ⟨m, hm⟩ : ∃ m, natural n = Json.number m := ⟨_, rfl⟩
    rw [hn, hm] at hv
    cases hv with
    | number l hvalue => exact natural_chars l hvalue hm.symm hr
  sound h := by
    unfold Typed.natural at h
    split at h
    · rename_i b tail hb
      split at h
      · rename_i hminus
        simp only [bind_eq_ok, Prod.exists] at h
        obtain ⟨m, r, hnumber, h⟩ := h
        obtain ⟨hm, rfl⟩ := checkNatural_eq_ok_iff.mp h
        subst hminus
        exact ⟨_, (begins_negative hnumber).behind hb, hm, Nat.zero_le _⟩
      · split at h
        · simp only [bind_eq_ok, Prod.exists] at h
          obtain ⟨m, r, hnumber, h⟩ := h
          obtain ⟨hm, rfl⟩ := checkNatural_eq_ok_iff.mp h
          exact ⟨_, (begins_number hnumber).behind hb, hm, Nat.zero_le _⟩
        · exact absurd h refuse_ne_ok
    · cases h

/-! Null stands for an absent value. -/

inductive Nullable (means : Json → α → Prop) : Json → Option α → Prop
  | null : Nullable means .null none
  | some {v : Json} {a : α} : means v a → Nullable means v (some a)

theorem head_ne_of_isNull {text : List Char} {v : Json} (hv : Verbatim text v)
    (hnull : v.isNull = false) {b : UInt8} {tail : Bytes} (hb : Utf8.encode text = b :: tail) :
    b ≠ byte 'n' := by
  have hne {c : Char} {cs : List Char} (hascii : c.val.toNat < 0x80) (hc : byte c ≠ byte 'n')
      (h : Utf8.encode (c :: cs) = b :: tail) : b ≠ byte 'n' := by
    rw [encode_ascii_cons hascii] at h
    exact (List.cons.inj h).1 ▸ hc
  cases hv with
  | null => cases hnull
  | true => exact hne (by decide) (by decide) hb
  | false => exact hne (by decide) (by decide) hb
  | string => exact hne (by decide) (by decide) hb
  | array => exact hne (by decide) (by decide) hb
  | object => exact hne (by decide) (by decide) hb
  | number l =>
    cases hnegative : l.negative with
    | true =>
      rw [NumberLiteral.chars, if_pos hnegative] at hb
      exact hne (by decide) (by decide) hb
    | false =>
      obtain ⟨b', tail', hb', hdigit⟩ := digits_cons l.whole
        (Utf8.encode (fractionChars l.fraction ++ exponentChars l.exponent))
      rw [NumberLiteral.chars, hnegative, if_neg Bool.false_ne_true, NumberLiteral.unsigned,
        Utf8.encode_append, hb'] at hb
      obtain ⟨rfl, -⟩ := List.cons.inj hb
      rintro rfl
      exact absurd hdigit (by decide)

theorem decodes_optional {budget : Nat} {means : Json → α → Prop}
    {value : Bytes → Except Failure (α × Bytes)} (h : Decodes budget means value)
    (hnull : ∀ a, ¬means .null a) :
    Decodes budget (Nullable means) (Typed.optional value) where
  blanks hbl bytes := by simp only [Typed.optional, skipBlanks_append hbl]
  complete := by
    intro text v o rest hv ho hle hr
    cases ho with
    | null =>
      cases hv
      rfl
    | some ha =>
      obtain ⟨b, tail, hb, hblank, -⟩ := opens_of_verbatim hv
      have hisNull : v.isNull = false := by
        cases v with
        | null => exact absurd ha (hnull _)
        | _ => rfl
      have hne := head_ne_of_isNull hv hisNull hb
      have hread := h.complete hv ha hle hr
      rw [hb, List.cons_append] at hread ⊢
      simp only [Typed.optional, skipBlanks_cons hblank, if_neg hne, hread, ok_bind]
  sound hread := by
    unfold Typed.optional at hread
    split at hread
    · rename_i b tail hb
      split at hread
      · rename_i hn
        simp only [bind_eq_ok, Prod.exists] at hread
        obtain ⟨u, r, hident, hread⟩ := hread
        cases hread
        subst hn
        exact ⟨_, (begins_word .null rfl hident).behind hb, .null, Nat.zero_le _⟩
      · simp only [bind_eq_ok, Prod.exists] at hread
        obtain ⟨a, r, hvalue, hread⟩ := hread
        cases hread
        obtain ⟨v, hv, ha, hle⟩ := h.sound hvalue
        exact ⟨v, hv.behind hb, .some ha, hle⟩
    · cases hread

/-! Containers. -/

section Containers

variable {budget : Nat} {means : Json → α → Prop} {value : Bytes → Except Failure (α × Bytes)}

def Fitting (budget : Nat) (means : Json → α → Prop) (xs : List (Json × α)) : Prop :=
  ∀ x ∈ xs, means x.1 x.2 ∧ x.1.depth ≤ budget

theorem Decodes.items_complete (h : Decodes budget means value) {xs : List (Json × α)}
    (hx : Fitting budget means xs) {first : Bool} {text : List Char}
    (hv : VerbatimItems first text (xs.map Prod.fst)) (rest : Bytes) {fuel : Nat} (i : Nat)
    (hf : xs.length < fuel) :
    Read.items value fuel i first (Utf8.encode text ++ rest) =
      .ok (xs.map Prod.snd, byte ']' :: rest) := by
  induction xs generalizing first text fuel i with
  | nil =>
    obtain ⟨fuel, rfl⟩ := Nat.exists_eq_add_one_of_ne_zero (Nat.ne_zero_of_lt hf)
    cases hv with
    | nil hbl =>
      rw [Utf8.encode_append, List.append_assoc]
      exact congrArg (· >>= _) (nextItem_close first (blanks_of_space hbl) rest)
  | cons x xs ih =>
    obtain ⟨fuel, rfl⟩ := Nat.exists_eq_add_one_of_ne_zero (Nat.ne_zero_of_lt hf)
    obtain ⟨⟨hmeans, hle⟩, hxs⟩ := List.forall_mem_cons.mp hx
    obtain ⟨body, more, hbody, hmore, hnext⟩ := nextItem_verbatim hv
    have hitem := h.complete hbody hmeans hle (endsValue_verbatimItems hmore rest)
    have hrest := ih hxs hmore (i + 1) (Nat.lt_of_succ_lt_succ hf)
    simp only [Read.items, hnext, ok_bind, if_true, hitem, inside_ok, hrest,
      List.map_cons]

theorem Decodes.items_sound (h : Decodes budget means value) {fuel i : Nat} {first : Bool}
    {bytes rest after : Bytes} {as : List α} {u : Unit}
    (hitems : Read.items value fuel i first bytes = .ok (as, rest))
    (hend : endArray rest = .ok (u, after)) :
    ∃ text xs, VerbatimItems first text (xs.map Prod.fst) ∧ as = xs.map Prod.snd ∧
      Fitting budget means xs ∧ bytes = Utf8.encode text ++ after := by
  induction fuel generalizing i first bytes as with
  | zero =>
    cases hitems
    obtain ⟨bl, hbl, rfl⟩ := exists_endArray hend
    exact ⟨_, [], .nil hbl, rfl, List.forall_mem_nil _, rfl⟩
  | succ fuel ih =>
    simp only [Read.items, bind_eq_ok, Prod.exists] at hitems
    obtain ⟨more, r, hnext, hitems⟩ := hitems
    cases more with
    | false =>
      cases hitems
      obtain ⟨text, htext, hbytes⟩ := exists_verbatimItems_nil hnext hend
      exact ⟨text, [], htext, rfl, List.forall_mem_nil _, hbytes⟩
    | true =>
      simp only [if_true, bind_eq_ok, inside_eq_ok, Prod.exists] at hitems
      obtain ⟨a, r', hvalue, as', r'', hrest, hitems⟩ := hitems
      cases hitems
      obtain ⟨v, hv, hmeans, hle⟩ := h.sound hvalue
      obtain ⟨more, xs, hmore, rfl, hxs, rfl⟩ := ih hrest
      obtain ⟨text, htext, hbytes⟩ := exists_verbatimItems_cons hnext hv hmore
      exact ⟨text, (v, a) :: xs, htext, rfl, List.forall_mem_cons.mpr ⟨⟨hmeans, hle⟩, hxs⟩, hbytes⟩

theorem Decodes.members_complete (h : Decodes budget means value)
    {ps : List (String × Json × α)} (hp : Fitting budget means (ps.map Prod.snd)) {first : Bool}
    {text : List Char} (hv : VerbatimMembers first text (ps.map fun p => (p.1, p.2.1)))
    (rest : Bytes) {fuel : Nat} (hf : ps.length < fuel) :
    Read.members value fuel first (Utf8.encode text ++ rest) =
      .ok (ps.map fun p => (p.1, p.2.2), byte '\x7d' :: rest) := by
  induction ps generalizing first text fuel with
  | nil =>
    obtain ⟨fuel, rfl⟩ := Nat.exists_eq_add_one_of_ne_zero (Nat.ne_zero_of_lt hf)
    cases hv with
    | nil hbl =>
      rw [Utf8.encode_append, List.append_assoc]
      exact congrArg (· >>= _) (nextKey_close first (blanks_of_space hbl) rest)
  | cons p ps ih =>
    obtain ⟨fuel, rfl⟩ := Nat.exists_eq_add_one_of_ne_zero (Nat.ne_zero_of_lt hf)
    obtain ⟨⟨hmeans, hle⟩, hps⟩ := List.forall_mem_cons.mp hp
    obtain ⟨bl, bl', body, more, hbl, hbl', hbody, hmore, hkey⟩ := nextKey_verbatim hv
    have hvalue := h.complete hbody hmeans hle (endsValue_verbatimMembers hmore rest)
    have hrest := ih hps hmore (Nat.lt_of_succ_lt_succ hf)
    simp only [Read.members, hkey, ok_bind, colon_blanks hbl, h.blanks hbl', hvalue, inside_ok,
      hrest, List.map_cons]

theorem Decodes.members_sound (h : Decodes budget means value) {fuel : Nat} {first : Bool}
    {bytes rest : Bytes} {pairs : List (String × α)} (hf : bytes.length < fuel)
    (hmembers : Read.members value fuel first bytes = .ok (pairs, rest)) :
    ∃ (text : List Char) (ps : List (String × Json × α)),
      VerbatimMembers first text (ps.map fun p => (p.1, p.2.1)) ∧
      pairs = ps.map (fun p => (p.1, p.2.2)) ∧ Fitting budget means (ps.map Prod.snd) ∧
      bytes = Utf8.encode text ++ rest.drop 1 := by
  induction fuel generalizing first bytes pairs with
  | zero => exact absurd hf (Nat.not_lt_zero _)
  | succ fuel ih =>
    simp only [Read.members, bind_eq_ok, Prod.exists] at hmembers
    obtain ⟨key, r, hkey, hmembers⟩ := hmembers
    cases key with
    | none =>
      cases hmembers
      obtain ⟨bl, tail, hbl, rfl, rfl⟩ := exists_nextKey_none hkey
      refine ⟨_, [], .nil hbl, rfl, List.forall_mem_nil _, ?_⟩
      rw [Utf8.encode_append, List.append_assoc]
      rfl
    | some k =>
      simp only [bind_eq_ok, inside_eq_ok, Prod.exists] at hmembers
      obtain ⟨_, r1, hcolon, a, r2, hvalue, pairs', r3, hrest, hmembers⟩ := hmembers
      cases hmembers
      obtain ⟨v, hv, hmeans, hle⟩ := h.sound hvalue
      have hlength : r2.length < fuel := by
        have hlt := (spans_nextKey_some hkey).2
        have hcolon := (spans_colon hcolon).length_le
        obtain ⟨_, _, -, -, rfl⟩ := hv
        simp only [List.length_append] at hcolon
        omega
      obtain ⟨more, ps, hmore, rfl, hps, rfl⟩ := ih hlength hrest
      obtain ⟨front, name, hfront, hname, rfl⟩ := exists_nextKey_some hkey
      obtain ⟨text, htext, hbytes⟩ := exists_verbatimMembers_cons hfront hname hcolon hv hmore
      exact ⟨text, (k, v, a) :: ps, htext, rfl, List.forall_mem_cons.mpr ⟨⟨hmeans, hle⟩, hps⟩,
        hbytes⟩

end Containers

section Enter

variable {budget : Nat} {means : Json → α → Prop} {bracket : Char} {expected : String}

theorem enter_blanks {bl : Bytes} (hbl : Blanks bl) (bytes : Bytes)
    (inner : Nat → Bytes → Except Failure (α × Bytes)) :
    Typed.enter bracket expected budget (bl ++ bytes) inner =
      Typed.enter bracket expected budget bytes inner := by
  simp only [Typed.enter, skipBlanks_append hbl]

variable (expected) {value : Nat → Bytes → Except Failure (α × Bytes)}
  (h : ∀ n, budget = n + 1 → Decodes n means (value n))

include h

theorem decodes_array : Decodes budget
    (fun v as => ∃ xs : List (Json × α), v = .array (xs.map Prod.fst) ∧ as = xs.map Prod.snd ∧
      ∀ x ∈ xs, means x.1 x.2)
    (fun bytes => Typed.enter '[' expected budget bytes fun n => Read.array (value n)) where
  blanks hbl bytes := enter_blanks hbl bytes _
  complete := by
    rintro text _ _ rest hv ⟨xs, rfl, rfl, hxs⟩ hle _
    have hb : isBlank (byte '[') = false := by decide
    cases hv with
    | @array text _ hitems =>
      cases budget with
      | zero => simp [depth] at hle
      | succ n =>
        rw [depth_array_le_succ, List.forall_mem_map] at hle
        have hlength := length_lt_of_verbatimItems hitems
        rw [List.length_map] at hlength
        have hfuel : xs.length < (Utf8.encode text ++ rest).length + 1 := by
          rw [List.length_append]
          omega
        have hread :=
          (h n rfl).items_complete (fun x hx => ⟨hxs x hx, hle x hx⟩) hitems rest 0 hfuel
        rw [encode_ascii_cons (by decide), List.cons_append]
        refine (enter_succ hb expected .nil _ _ n).trans ?_
        simp only [Read.array, hread, ok_bind, endArray_close]
  sound := by
    intro bytes as rest hread
    obtain ⟨n, tail, rfl, hskip, hread⟩ := enter_eq_ok hread
    simp only [Read.array, bind_eq_ok, Prod.exists] at hread
    obtain ⟨as', r, hitems, u, r', hend, hread⟩ := hread
    cases hread
    obtain ⟨text, xs, htext, rfl, hxs, rfl⟩ := (h n rfl).items_sound hitems hend
    refine ⟨_, (begins_array htext rest).behind hskip, ⟨xs, rfl, rfl, fun x hx => (hxs x hx).1⟩, ?_⟩
    rw [depth_array_le_succ, List.forall_mem_map]
    exact fun x hx => (hxs x hx).2

theorem decodes_object : Decodes budget
    (fun v ms => ∃ ps : List (String × Json × α), v = .object (ps.map fun p => (p.1, p.2.1)) ∧
      ms = Members.ofPairs (ps.map fun p => (p.1, p.2.2)) ∧ ∀ p ∈ ps, means p.2.1 p.2.2)
    (fun bytes => Typed.enter '\x7b' expected budget bytes fun n => Read.object (value n)) where
  blanks hbl bytes := enter_blanks hbl bytes _
  complete := by
    rintro text _ _ rest hv ⟨ps, rfl, rfl, hps⟩ hle _
    have hb : isBlank (byte '\x7b') = false := by decide
    cases hv with
    | @object text _ hmembers =>
      cases budget with
      | zero => simp [depth] at hle
      | succ n =>
        rw [depth_object_le_succ, List.forall_mem_map] at hle
        have hlength := length_lt_of_verbatimMembers hmembers
        rw [List.length_map] at hlength
        have hfit : Fitting n means (ps.map Prod.snd) :=
          List.forall_mem_map.mpr fun p hp => ⟨hps p hp, hle p hp⟩
        have hfuel : ps.length < (Utf8.encode text ++ rest).length + 1 := by
          rw [List.length_append]
          omega
        have hread := (h n rfl).members_complete hfit hmembers rest hfuel
        rw [encode_ascii_cons (by decide), List.cons_append]
        refine (enter_succ hb expected .nil _ _ n).trans ?_
        simp only [Read.object, hread, ok_bind, List.drop_succ_cons, List.drop_zero]
  sound := by
    intro bytes ms rest hread
    obtain ⟨n, tail, rfl, hskip, hread⟩ := enter_eq_ok hread
    simp only [Read.object, bind_eq_ok, Prod.exists] at hread
    obtain ⟨pairs, r, hmembers, hread⟩ := hread
    cases hread
    obtain ⟨text, ps, htext, rfl, hps, rfl⟩ := (h n rfl).members_sound (Nat.lt_succ_self _) hmembers
    have hfit := List.forall_mem_map.mp hps
    refine ⟨_, (begins_object htext (r.drop 1)).behind hskip,
      ⟨ps, rfl, rfl, fun p hp => (hfit p hp).1⟩, ?_⟩
    rw [depth_object_le_succ, List.forall_mem_map]
    exact fun p hp => (hfit p hp).2

end Enter

/-! Whole texts. -/

def IsTextOf (text : String) (v : Json) : Prop :=
  ∃ front body back, Space front ∧ Verbatim body v ∧ Space back ∧
    text.toList = front ++ (body ++ back)

theorem readWhole_eq_ok_iff {value : Bytes → Except Failure (α × Bytes)} {bytes : Bytes} {a : α} :
    readWhole value bytes = .ok a ↔ ∃ rest, value bytes = .ok (a, rest) ∧ skipBlanks rest = [] := by
  rw [readWhole]
  cases value bytes with
  | error f => simp
  | ok p =>
    obtain ⟨b, rest⟩ := p
    cases hskip : skipBlanks rest with
    | nil =>
      simp only [hskip, Except.ok.injEq, Prod.mk.injEq]
      constructor
      · intro hb
        exact ⟨rest, ⟨hb, rfl⟩, hskip⟩
      · rintro ⟨_, ⟨hb, -⟩, -⟩
        exact hb
    | cons c left => simp [hskip]

theorem Decodes.readWhole_eq_ok_iff {budget : Nat} {means : Json → α → Prop}
    {value : Bytes → Except Failure (α × Bytes)} (h : Decodes budget means value) {text : String}
    {a : α} : readWhole value (Utf8.ofString text) = .ok a ↔
      ∃ v, IsTextOf text v ∧ v.depth ≤ budget ∧ means v a := by
  rw [Read.readWhole_eq_ok_iff]
  constructor
  · rintro ⟨rest, hread, hrest⟩
    obtain ⟨v, ⟨front, body, hfront, hbody, hbytes⟩, ha, hle⟩ := h.sound hread
    obtain ⟨back, hback, rfl⟩ := exists_space hrest
    refine ⟨v, ⟨front, body, back, hfront, hbody, hback, Utf8.encode_injective ?_⟩, hle, ha⟩
    simp only [Utf8.encode_append]
    rwa [List.append_nil] at hbytes
  · rintro ⟨v, ⟨front, body, back, hfront, hbody, hback, htext⟩, hle, ha⟩
    have hblanks := blanks_of_space hback
    refine ⟨_, ?_, skipBlanks_blanks hblanks⟩
    rw [Utf8.ofString, htext, Utf8.encode_append, Utf8.encode_append,
      h.blanks (blanks_of_space hfront)]
    exact h.complete hbody ha hle (endsValue_of_blanks hblanks)

end SchemaByExample.Read
