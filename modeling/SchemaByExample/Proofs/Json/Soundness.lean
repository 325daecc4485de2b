import SchemaByExample.Proofs.Json.Accepting
import SchemaByExample.Proofs.Json.Completeness

/-! Whatever the reader gives a value for is a text of the grammar that denotes it, and nests
no more containers than the budget. -/
namespace SchemaByExample.Json

open Read Literal

variable {bytes rest : Bytes}

/-! Steps between the values of a container. -/

theorem exists_space (h : skipBlanks bytes = rest) :
    ∃ bl, Space bl ∧ bytes = Utf8.encode bl ++ rest := by
  subst h
  induction bytes with
  | nil => exact ⟨[], .nil, rfl⟩
  | cons b bytes ih =>
    cases hb : isBlank b with
    | false => exact ⟨[], .nil, by rw [skipBlanks_cons hb]; rfl⟩
    | true =>
      obtain ⟨bl, hbl, hbytes⟩ := ih
      have hskip : skipBlanks (b :: bytes) = skipBlanks bytes := by
        rw [skipBlanks, List.dropWhile_cons, if_pos hb]
        rfl
      have hchar : ∃ c : Char, c ∈ [' ', '\n', '\t', '\r'] ∧ c.val.toNat < 0x80 ∧ byte c = b := by
        simp only [isBlank, Bool.or_eq_true, beq_iff_eq] at hb
        obtain ((rfl | rfl) | rfl) | rfl := hb
        · exact ⟨' ', by decide⟩
        · exact ⟨'\n', by decide⟩
        · exact ⟨'\t', by decide⟩
        · exact ⟨'\r', by decide⟩
      obtain ⟨c, hc, hlt, rfl⟩ := hchar
      refine ⟨c :: bl, List.forall_mem_cons.mpr ⟨hc, hbl⟩, ?_⟩
      rw [hskip, encode_ascii_cons hlt, List.cons_append, ← hbytes]

theorem Space.append {bl bl' : List Char} (h : Space bl) (h' : Space bl') : Space (bl ++ bl') :=
  List.forall_mem_append.mpr ⟨h, h'⟩

theorem Separator.append {first : Bool} {front bl : List Char} (h : Separator first front)
    (hbl : Space bl) : Separator first (front ++ bl) := by
  cases h with
  | first h => exact .first (h.append hbl)
  | next h h' =>
    rw [List.append_assoc, List.cons_append]
    exact .next h (h'.append hbl)

theorem exists_separator {first more : Bool} (h : nextItem first bytes = .ok (more, rest)) :
    (more = false ∧ ∃ bl, Space bl ∧ bytes = Utf8.encode bl ++ rest) ∨
      (more = true ∧ ∃ front, Separator first front ∧ bytes = Utf8.encode front ++ rest) := by
  unfold nextItem at h
  split at h
  · cases h
  · rename_i b tail hb
    obtain ⟨bl, hbl, rfl⟩ := exists_space hb
    split at h
    · cases h
      exact .inl ⟨rfl, bl, hbl, rfl⟩
    split at h
    · rename_i hfirst
      cases h
      subst hfirst
      exact .inr ⟨rfl, bl, .first hbl, rfl⟩
    rename_i hfirst
    have hfirst : first = false := by simpa using hfirst
    subst hfirst
    split at h
    · rename_i hcomma
      subst hcomma
      split at h
      · cases h
      · rename_i c tail' hc
        obtain ⟨bl', hbl', rfl⟩ := exists_space hc
        split at h
        · cases h
        · cases h
          refine .inr ⟨rfl, bl ++ ',' :: bl', .next hbl hbl', ?_⟩
          rw [Utf8.encode_append, encode_ascii_cons (by decide), List.append_assoc]
          rfl
    · cases h

theorem exists_endArray {u : Unit} (h : endArray bytes = .ok (u, rest)) :
    ∃ bl, Space bl ∧ bytes = Utf8.encode (bl ++ [']']) ++ rest := by
  unfold endArray at h
  split at h
  · cases h
  · rename_i b tail hb
    obtain ⟨bl, hbl, rfl⟩ := exists_space hb
    split at h
    · rename_i hclose
      cases h
      refine ⟨bl, hbl, ?_⟩
      rw [hclose, Utf8.encode_append, List.append_assoc]
      rfl
    · split at h
      · split at h
        · cases h
        · split at h <;> cases h
      · cases h

theorem exists_colon {u : Unit} (h : colon bytes = .ok (u, rest)) :
    ∃ bl, Space bl ∧ bytes = Utf8.encode bl ++ byte ':' :: rest := by
  unfold colon at h
  split at h
  · cases h
  · rename_i b tail hb
    obtain ⟨bl, hbl, rfl⟩ := exists_space hb
    split at h
    · rename_i hcolon
      cases h
      exact ⟨bl, hbl, by rw [hcolon]⟩
    · cases h

theorem exists_nextMember {first more : Bool} (h : nextMember first bytes = .ok (more, rest)) :
    (more = false ∧ ∃ bl tail, Space bl ∧ rest = byte '\x7d' :: tail ∧
        bytes = Utf8.encode bl ++ rest) ∨
      (more = true ∧ ∃ front tail, Separator first front ∧ rest = byte '"' :: tail ∧
        bytes = Utf8.encode front ++ rest) := by
  unfold nextMember at h
  split at h
  · cases h
  · rename_i b tail hb
    obtain ⟨bl, hbl, rfl⟩ := exists_space hb
    split at h
    · rename_i hclose
      cases h
      exact .inl ⟨rfl, bl, tail, hbl, by rw [hclose], rfl⟩
    split at h
    · rename_i hfirst
      subst hfirst
      split at h
      · rename_i hquote
        cases h
        exact .inr ⟨rfl, bl, tail, .first hbl, by rw [hquote], rfl⟩
      · cases h
    rename_i hfirst
    have hfirst : first = false := by simpa using hfirst
    subst hfirst
    split at h
    · rename_i hcomma
      subst hcomma
      split at h
      · cases h
      · rename_i c tail' hc
        obtain ⟨bl', hbl', rfl⟩ := exists_space hc
        split at h
        · rename_i hquote
          cases h
          refine .inr ⟨rfl, bl ++ ',' :: bl', tail', .next hbl hbl', by rw [hquote], ?_⟩
          rw [Utf8.encode_append, encode_ascii_cons (by decide), List.append_assoc]
          rfl
        · split at h <;> cases h
    · cases h

theorem exists_nextKey_none {first : Bool} (h : nextKey first bytes = .ok (none, rest)) :
    ∃ bl tail, Space bl ∧ rest = byte '\x7d' :: tail ∧ bytes = Utf8.encode bl ++ rest := by
  simp only [nextKey, inside_eq_ok, bind_eq_ok, Prod.exists] at h
  obtain ⟨more, r, hmember, h⟩ := h
  obtain ⟨rfl, hclose⟩ | ⟨rfl, -⟩ := exists_nextMember hmember
  · cases h
    exact hclose
  · simp only [if_true, bind_eq_ok, Prod.exists] at h
    obtain ⟨k, r', -, h⟩ := h
    cases h

theorem exists_nextKey_some {first : Bool} {k : String}
    (h : nextKey first bytes = .ok (some k, rest)) :
    ∃ front body, Separator first front ∧ Content body k.toList ∧
      bytes = Utf8.encode front ++ byte '"' :: (Utf8.encode body ++ byte '"' :: rest) := by
  simp only [nextKey, inside_eq_ok, bind_eq_ok, Prod.exists] at h
  obtain ⟨more, r, hmember, h⟩ := h
  obtain ⟨rfl, -⟩ | ⟨rfl, front, tail, hfront, rfl, rfl⟩ := exists_nextMember hmember
  · cases h
  · simp only [if_true, bind_eq_ok, Prod.exists] at h
    obtain ⟨k', r', hk, h⟩ := h
    cases h
    obtain ⟨body, hbody, hbytes⟩ := exists_body hk
    rw [List.drop_succ_cons, List.drop_zero] at hbytes
    exact ⟨front, body, hfront, hbody, by rw [hbytes]⟩

/-! Containers. -/

def Recognizes (budget : Nat) (value : Bytes → Except Failure (Json × Bytes)) : Prop :=
  ∀ ⦃bytes v rest⦄, value bytes = .ok (v, rest) →
    ∃ bl text n, Space bl ∧ Denotes text v ∧ Legible n text v ∧ n ≤ budget ∧
      bytes = Utf8.encode bl ++ (Utf8.encode text ++ rest)

section Containers

variable {budget : Nat} {value : Bytes → Except Failure (Json × Bytes)}

theorem exists_items (hvalue : Recognizes budget value) {fuel i : Nat} {first : Bool}
    {items : List Json} {u : Unit} {after : Bytes}
    (h : Read.items value fuel i first bytes = .ok (items, rest))
    (hend : endArray rest = .ok (u, after)) :
    ∃ text n, DenotesItems first text items ∧ LegibleItems n first text items ∧ n ≤ budget ∧
      bytes = Utf8.encode text ++ after := by
  induction fuel generalizing i first bytes items with
  | zero =>
    cases h
    obtain ⟨bl, hbl, rfl⟩ := exists_endArray hend
    exact ⟨_, 0, .nil hbl, legibleItems_nil first hbl, Nat.zero_le _, rfl⟩
  | succ fuel ih =>
    simp only [Read.items, bind_eq_ok, Prod.exists] at h
    obtain ⟨more, r, hnext, h⟩ := h
    obtain ⟨rfl, bl, hbl, rfl⟩ | ⟨rfl, front, hfront, rfl⟩ := exists_separator hnext
    · cases h
      obtain ⟨bl', hbl', rfl⟩ := exists_endArray hend
      refine ⟨_, 0, .nil (hbl.append hbl'), legibleItems_nil first (hbl.append hbl'),
        Nat.zero_le _, ?_⟩
      simp only [Utf8.encode_append, List.append_assoc]
    · simp only [if_true, bind_eq_ok, inside_eq_ok, Prod.exists] at h
      obtain ⟨v, r', hv, vs, r'', hvs, h⟩ := h
      cases h
      obtain ⟨bl, text, m, hbl, hdenotes, hlegible, hm, rfl⟩ := hvalue hv
      obtain ⟨text', n, hdenotes', hlegible', hn, rfl⟩ := ih hvs
      have hfront' := hfront.append hbl
      refine ⟨_, _, .cons hfront' hdenotes hdenotes',
        legibleItems_cons hfront' hlegible hdenotes' hlegible', Nat.max_le.mpr ⟨hm, hn⟩, ?_⟩
      simp only [Utf8.encode_append, List.append_assoc]

theorem exists_members (hvalue : Recognizes budget value) {fuel : Nat} {first : Bool}
    {pairs : List (String × Json)} (hf : bytes.length < fuel)
    (h : Read.members value fuel first bytes = .ok (pairs, rest)) :
    ∃ text n, DenotesMembers first text pairs ∧ LegibleMembers n first text pairs ∧ n ≤ budget ∧
      bytes = Utf8.encode text ++ rest.drop 1 := by
  induction fuel generalizing first bytes pairs with
  | zero => exact absurd hf (Nat.not_lt_zero _)
  | succ fuel ih =>
    simp only [Read.members, bind_eq_ok, Prod.exists] at h
    obtain ⟨key, r, hkey, h⟩ := h
    cases key with
    | none =>
      cases h
      obtain ⟨bl, tail, hbl, rfl, rfl⟩ := exists_nextKey_none hkey
      refine ⟨_, 0, .nil hbl, legibleMembers_nil first hbl, Nat.zero_le _, ?_⟩
      rw [Utf8.encode_append, List.append_assoc]
      rfl
    | some k =>
      simp only [bind_eq_ok, inside_eq_ok, Prod.exists] at h
      obtain ⟨_, r1, hcolon, v, r2, hv, ps, r3, hps, h⟩ := h
      cases h
      obtain ⟨front, body, hfront, hbody, rfl⟩ := exists_nextKey_some hkey
      obtain ⟨bl, hbl, rfl⟩ := exists_colon hcolon
      obtain ⟨bl', text, m, hbl', hdenotes, hlegible, hm, rfl⟩ := hvalue hv
      have hlength : r2.length < fuel := by
        simp only [List.length_append, List.length_cons] at hf
        omega
      obtain ⟨text', n, hdenotes', hlegible', hn, rfl⟩ := ih hlength hps
      have hmore := legibleMembers_cons hfront hbody hbl hbl' hlegible hdenotes' hlegible'
      have hdenotes'' := DenotesMembers.cons hfront hbody hbl hbl' hdenotes hdenotes'
      rw [String.ofList_toList] at hmore hdenotes''
      refine ⟨_, _, hdenotes'', hmore, Nat.max_le.mpr ⟨hm, hn⟩, ?_⟩
      have hquote : '"'.val.toNat < 0x80 := by decide
      have hcolon : ':'.val.toNat < 0x80 := by decide
      simp only [Utf8.encode_append, encode_ascii_cons hquote, encode_ascii_cons hcolon,
        List.append_assoc, List.cons_append]

end Containers

/-! Values. -/

theorem eq_of_ident {cs : List Char} {u : Unit} (h : ident cs bytes = .ok (u, rest)) :
    bytes = cs.map byte ++ rest := by
  induction cs generalizing bytes with
  | nil =>
    cases h
    rfl
  | cons c cs ih =>
    cases bytes with
    | nil => cases h
    | cons b bytes =>
      rw [ident] at h
      split at h
      · rename_i hb
        rw [ih h, hb]
        rfl
      · cases h

def Stands (budget : Nat) (v : Json) (bytes rest : Bytes) : Prop :=
  ∃ text n, Denotes text v ∧ Legible n text v ∧ n ≤ budget ∧ bytes = Utf8.encode text ++ rest

section Stands

variable {budget : Nat} {value : Bytes → Except Failure (Json × Bytes)}

theorem Stands.scalar {text : List Char} {v : Json} (hv : Denotes text v) (hl : Legible 0 text v)
    (h : bytes = Utf8.encode text ++ rest) : Stands budget v bytes rest :=
  ⟨text, 0, hv, hl, Nat.zero_le _, h⟩

theorem stands_word {c : Char} {cs : List Char} {v : Json} {u : Unit} (hv : Denotes (c :: cs) v)
    (hl : Legible 0 (c :: cs) v) (henc : Utf8.encode (c :: cs) = (c :: cs).map byte)
    (h : ident cs bytes = .ok (u, rest)) : Stands budget v (byte c :: bytes) rest := by
  refine .scalar hv hl ?_
  rw [henc, eq_of_ident h]
  rfl

theorem stands_negative {n : JsonNumber} (h : Literal.number true bytes = .ok (n, rest)) :
    Stands budget (.number n) (byte '-' :: bytes) rest := by
  obtain ⟨l, hnegative, hvalue, rfl⟩ := exists_literal h
  refine .scalar (.number l hvalue) (legible_number l hvalue) ?_
  rw [NumberLiteral.chars, if_pos hnegative, encode_ascii_cons (by decide)]
  rfl

theorem stands_number {n : JsonNumber} (h : Literal.number false bytes = .ok (n, rest)) :
    Stands budget (.number n) bytes rest := by
  obtain ⟨l, hnegative, hvalue, hbytes⟩ := exists_literal h
  refine .scalar (.number l hvalue) (legible_number l hvalue) ?_
  rw [hbytes, NumberLiteral.chars, if_neg (by simp [hnegative])]

theorem stands_quoted {s : String} (h : Literal.string bytes = .ok (s, rest)) :
    Stands budget (.string s) (byte '"' :: bytes) rest := by
  obtain ⟨body, hbody, rfl⟩ := exists_body h
  have hdenotes := Denotes.string hbody
  have hlegible := legible_string hbody
  rw [String.ofList_toList] at hdenotes hlegible
  refine .scalar hdenotes hlegible ?_
  rw [encode_ascii_cons (by decide), Utf8.encode_append, List.cons_append, List.append_assoc]
  rfl

theorem stands_array {items : List Json} (hvalue : Recognizes budget value)
    (h : Read.array value bytes = .ok (items, rest)) :
    Stands (budget + 1) (.array items) (byte '[' :: bytes) rest := by
  simp only [Read.array, bind_eq_ok, Prod.exists] at h
  obtain ⟨items', r, hitems, u, r', hend, hr⟩ := h
  cases hr
  obtain ⟨text, n, hdenotes, hlegible, hn, rfl⟩ := exists_items hvalue hitems hend
  refine ⟨_, n + 1, .array hdenotes, legible_array hlegible, Nat.succ_le_succ hn, ?_⟩
  rw [encode_ascii_cons (by decide)]
  rfl

theorem stands_object {members : List (String × Json)} (hvalue : Recognizes budget value)
    (h : Read.object value bytes = .ok (members, rest)) :
    Stands (budget + 1) (.object members) (byte '\x7b' :: bytes) rest := by
  simp only [Read.object, bind_eq_ok, Prod.exists] at h
  obtain ⟨pairs, r, hmembers, hr⟩ := h
  cases hr
  obtain ⟨text, n, hdenotes, hlegible, hn, rfl⟩ :=
    exists_members hvalue (Nat.lt_succ_self _) hmembers
  refine ⟨_, n + 1, .object hdenotes, legible_object hlegible, Nat.succ_le_succ hn, ?_⟩
  rw [encode_ascii_cons (by decide)]
  rfl

end Stands

theorem recognizes_of_inner {budget : Nat}
    (hinner : ∀ n, budget = n + 1 → Recognizes n (read n)) : Recognizes budget (read budget) := by
  intro bytes v rest h
  unfold Json.read at h
  split at h
  · cases h
  rename_i b tail hskip
  obtain ⟨bl, hbl, rfl⟩ := exists_space hskip
  clear hskip
  suffices hstands : Stands budget v (b :: tail) rest by
    obtain ⟨text, n, hdenotes, hlegible, hn, hbytes⟩ := hstands
    exact ⟨bl, text, n, hbl, hdenotes, hlegible, hn, by rw [hbytes]⟩
  split at h
  · rename_i hb
    subst hb
    simp only [bind_eq_ok, Prod.exists] at h
    obtain ⟨u, r, hident, h⟩ := h
    cases h
    exact stands_word .null legible_null rfl hident
  split at h
  · rename_i hb
    subst hb
    simp only [bind_eq_ok, Prod.exists] at h
    obtain ⟨u, r, hident, h⟩ := h
    cases h
    exact stands_word .true legible_true rfl hident
  split at h
  · rename_i hb
    subst hb
    simp only [bind_eq_ok, Prod.exists] at h
    obtain ⟨u, r, hident, h⟩ := h
    cases h
    exact stands_word .false legible_false rfl hident
  split at h
  · rename_i hb
    subst hb
    simp only [bind_eq_ok, Prod.exists] at h
    obtain ⟨n, r, hnumber, h⟩ := h
    cases h
    exact stands_negative hnumber
  split at h
  · simp only [bind_eq_ok, Prod.exists] at h
    obtain ⟨n, r, hnumber, h⟩ := h
    cases h
    exact stands_number hnumber
  split at h
  · rename_i hb
    subst hb
    simp only [bind_eq_ok, Prod.exists] at h
    obtain ⟨s, r, hstring, h⟩ := h
    cases h
    exact stands_quoted hstring
  split at h
  · rename_i hb
    subst hb
    cases budget with
    | zero => cases h
    | succ budget =>
      simp only [bind_eq_ok, Prod.exists] at h
      obtain ⟨items, r, harray, h⟩ := h
      cases h
      exact stands_array (hinner budget rfl) harray
  split at h
  · rename_i hb
    subst hb
    cases budget with
    | zero => cases h
    | succ budget =>
      simp only [bind_eq_ok, Prod.exists] at h
      obtain ⟨members, r, hobject, h⟩ := h
      cases h
      exact stands_object (hinner budget rfl) hobject
  · cases h

theorem recognizes_read (budget : Nat) : Recognizes budget (read budget) := by
  induction budget with
  | zero => exact recognizes_of_inner fun n hn => absurd hn (by omega)
  | succ budget ih =>
    refine recognizes_of_inner fun n hn => ?_
    obtain rfl : budget = n := by omega
    exact ih

end SchemaByExample.Json
