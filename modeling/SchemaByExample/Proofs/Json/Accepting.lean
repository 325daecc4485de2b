import SchemaByExample.Json.Typed
import SchemaByExample.Proofs.Json.Nesting

/-! What readers accept. A reader that gives a result has passed over whole tokens, which
nest no more containers than the budget, and the result fits into as many. -/
namespace SchemaByExample.Read

open Literal

variable {α : Type} {bytes rest : Bytes} {budget : Nat}

theorem inside_eq_ok {segment : Segment} {x : Except Failure α} {a : α} :
    inside segment x = .ok a ↔ x = .ok a := by
  cases x with
  | ok b => exact Iff.rfl
  | error f => constructor <;> (intro h; cases h)

theorem inside_ok (segment : Segment) (a : α) : inside segment (.ok a) = .ok a := rfl

/-- The bytes before `rest` are whole tokens that nest no more containers than the budget, and
their number is as told. -/
def Takes (budget : Nat) (bytes rest : Bytes) (told : Nat → Prop) : Prop :=
  ∃ n ≤ budget, Spans n bytes rest ∧ told n

namespace Takes

variable {mid : Bytes} {p q r : Nat → Prop}

theorem of_spans (h : Spans 0 bytes rest) (hp : p 0) : Takes budget bytes rest p :=
  ⟨0, Nat.zero_le budget, h, hp⟩

theorem after (h : Takes budget mid rest p) (h0 : Spans 0 bytes mid) :
    Takes budget bytes rest p := by
  obtain ⟨n, hn, hspans, hp⟩ := h
  exact ⟨n, hn, hspans.after h0, hp⟩

theorem before (h : Takes budget bytes mid p) (h0 : Spans 0 mid rest) :
    Takes budget bytes rest p := by
  obtain ⟨n, hn, hspans, hp⟩ := h
  exact ⟨n, hn, hspans.before h0, hp⟩

/-- Of two stretches the deeper one counts. -/
theorem trans (h : Takes budget bytes mid p) (h' : Takes budget mid rest q)
    (hr : ∀ ⦃m n⦄, p m → q n → r (max m n)) : Takes budget bytes rest r := by
  obtain ⟨m, hm, hspans, hp⟩ := h
  obtain ⟨n, hn, hspans', hq⟩ := h'
  exact ⟨max m n, Nat.max_le.mpr ⟨hm, hn⟩, hspans.trans hspans', hr hp hq⟩

theorem bracket {b c : UInt8} (hb : b = byte '[' ∨ b = byte '\x7b')
    (hc : c = byte ']' ∨ c = byte '\x7d') (h : Takes budget bytes (c :: rest) p)
    (hr : ∀ ⦃n⦄, p n → r (n + 1)) : Takes (budget + 1) (b :: bytes) rest r := by
  obtain ⟨n, hn, hspans, hp⟩ := h
  exact ⟨n + 1, Nat.succ_le_succ hn, hspans.bracket hb hc, hr hp⟩

theorem length_le (h : Takes budget bytes rest p) : rest.length ≤ bytes.length := by
  obtain ⟨_, -, hspans, -⟩ := h
  exact hspans.length_le

end Takes

def Accepts (budget : Nat) (fits : α → Nat → Prop)
    (value : Bytes → Except Failure (α × Bytes)) : Prop :=
  ∀ ⦃bytes a rest⦄, value bytes = .ok (a, rest) → Takes budget bytes rest (fits a)

theorem Accepts.of_spans {value : Bytes → Except Failure (α × Bytes)}
    (h : ∀ ⦃bytes a rest⦄, value bytes = .ok (a, rest) → Spans 0 bytes rest) (budget : Nat) :
    Accepts budget (fun _ _ => True) value :=
  fun _ _ _ hr => .of_spans (h hr) trivial

/-! Steps between the values of a container. -/

theorem spans_nextItem {first more : Bool} (h : nextItem first bytes = .ok (more, rest)) :
    Spans 0 bytes rest := by
  unfold nextItem at h
  split at h
  · cases h
  · rename_i b tail hb
    have hblanks := spans_of_skipBlanks hb
    split at h
    · cases h
      exact hblanks
    · split at h
      · cases h
        exact hblanks
      · split at h
        · rename_i hcomma
          have hnext := (spans_cons (hcomma ▸ by decide) tail).after hblanks
          split at h
          · cases h
          · rename_i c tail' hc
            have hblanks' := spans_of_skipBlanks hc
            split at h
            · cases h
            · cases h
              exact hblanks'.after hnext
        · cases h

theorem spans_nextMember {first more : Bool} (h : nextMember first bytes = .ok (more, rest)) :
    Spans 0 bytes rest ∧ ∃ tail, rest = byte (if more then '"' else '\x7d') :: tail := by
  unfold nextMember at h
  split at h
  · cases h
  · rename_i b tail hb
    have hblanks := spans_of_skipBlanks hb
    split at h
    · rename_i hclose
      cases h
      exact ⟨hblanks, tail, hclose ▸ rfl⟩
    · split at h
      · split at h
        · rename_i hquote
          cases h
          exact ⟨hblanks, tail, hquote ▸ rfl⟩
        · cases h
      · split at h
        · rename_i hcomma
          have hnext := (spans_cons (hcomma ▸ by decide) tail).after hblanks
          split at h
          · cases h
          · rename_i c tail' hc
            have hblanks' := spans_of_skipBlanks hc
            split at h
            · rename_i hquote
              cases h
              exact ⟨hblanks'.after hnext, tail', hquote ▸ rfl⟩
            · split at h <;> cases h
        · cases h

theorem spans_colon {u : Unit} (h : colon bytes = .ok (u, rest)) : Spans 0 bytes rest := by
  unfold colon at h
  split at h
  · cases h
  · rename_i b tail hb
    split at h
    · rename_i hcolon
      cases h
      exact (spans_cons (hcolon ▸ by decide) _).after (spans_of_skipBlanks hb)
    · cases h

theorem spans_endArray {u : Unit} (h : endArray bytes = .ok (u, rest)) :
    Spans 0 bytes (byte ']' :: rest) := by
  unfold endArray at h
  split at h
  · cases h
  · rename_i b tail hb
    split at h
    · rename_i hclose
      cases h
      exact hclose ▸ spans_of_skipBlanks hb
    · split at h
      · split at h
        · cases h
        · split at h <;> cases h
      · cases h

theorem spans_nextKey_none {first : Bool} (h : nextKey first bytes = .ok (none, rest)) :
    Spans 0 bytes rest ∧ ∃ tail, rest = byte '\x7d' :: tail := by
  simp only [nextKey, inside_eq_ok, bind_eq_ok, Prod.exists] at h
  obtain ⟨more, r, hmember, h⟩ := h
  cases more with
  | true =>
    simp only [if_true, bind_eq_ok, Prod.exists] at h
    obtain ⟨k, r', -, h⟩ := h
    cases h
  | false =>
    cases h
    exact spans_nextMember hmember

/-- A name takes some bytes, so there are fewer left for the members behind it. -/
theorem spans_nextKey_some {first : Bool} {k : String}
    (h : nextKey first bytes = .ok (some k, rest)) :
    Spans 0 bytes rest ∧ rest.length < bytes.length := by
  simp only [nextKey, inside_eq_ok, bind_eq_ok, Prod.exists] at h
  obtain ⟨more, r, hmember, h⟩ := h
  cases more with
  | false => cases h
  | true =>
    simp only [if_true, bind_eq_ok, Prod.exists] at h
    obtain ⟨k', r', hk, h⟩ := h
    cases h
    obtain ⟨hspans, tail, rfl⟩ := spans_nextMember hmember
    have hk' := (leads_string hk).length_le
    have hspans' := hspans.length_le
    refine ⟨(spans_string hk).after hspans, ?_⟩
    rw [List.length_cons] at hspans'
    exact Nat.lt_of_le_of_lt hk' hspans'

/-! Containers. What fits into a number of containers also fits into more. -/

section Containers

variable {fits : α → Nat → Prop} (hmono : ∀ ⦃a m n⦄, m ≤ n → fits a m → fits a n)

include hmono

theorem fits_cons {ι : Type} (value : ι → α) {i : ι} {rest : List ι} {m n : Nat}
    (hi : fits (value i) m) (hrest : ∀ j ∈ rest, fits (value j) n) :
    ∀ j ∈ i :: rest, fits (value j) (max m n) :=
  List.forall_mem_cons.mpr ⟨hmono (Nat.le_max_left m n) hi,
    fun j hj => hmono (Nat.le_max_right m n) (hrest j hj)⟩

theorem accepts_items {item : Bytes → Except Failure (α × Bytes)}
    (hitem : Accepts budget fits item) (fuel i : Nat) (first : Bool) :
    Accepts budget (fun vs n => ∀ v ∈ vs, fits v n) (items item fuel i first) := by
  induction fuel generalizing i first with
  | zero =>
    intro bytes vs rest h
    cases h
    exact .of_spans (.refl _ _) (by simp)
  | succ fuel ih =>
    intro bytes vs rest h
    simp only [items, bind_eq_ok, Prod.exists] at h
    obtain ⟨more, r, hnext, h⟩ := h
    have hfront := spans_nextItem hnext
    cases more with
    | false =>
      cases h
      exact .of_spans hfront (by simp)
    | true =>
      simp only [if_true, bind_eq_ok, inside_eq_ok, Prod.exists] at h
      obtain ⟨v, r', hv, vs', r'', hvs, h⟩ := h
      cases h
      refine Takes.after (Takes.trans (hitem hv) (ih _ _ hvs) fun m n hfits hfits' => ?_) hfront
      exact fits_cons hmono id hfits hfits'

/-- With a step for each byte the members are read up to the closing brace. -/
theorem accepts_members {value : Bytes → Except Failure (α × Bytes)}
    (hvalue : Accepts budget fits value) {fuel : Nat} {first : Bool}
    {ms : List (String × α)} (hf : bytes.length < fuel)
    (h : members value fuel first bytes = .ok (ms, rest)) :
    Takes budget bytes rest (fun n => ∀ p ∈ ms, fits p.2 n) ∧
      ∃ tail, rest = byte '\x7d' :: tail := by
  induction fuel generalizing first bytes ms with
  | zero => exact absurd hf (Nat.not_lt_zero _)
  | succ fuel ih =>
    simp only [members, bind_eq_ok, Prod.exists] at h
    obtain ⟨key, r, hkey, h⟩ := h
    cases key with
    | none =>
      cases h
      obtain ⟨hspans, hclose⟩ := spans_nextKey_none hkey
      exact ⟨.of_spans hspans (by simp), hclose⟩
    | some k =>
      simp only [bind_eq_ok, inside_eq_ok, Prod.exists] at h
      obtain ⟨_, r1, hcolon, v, r2, hv, ms', r3, hms, h⟩ := h
      cases h
      obtain ⟨hkey, hlt⟩ := spans_nextKey_some hkey
      have hcolon := spans_colon hcolon
      have hv := hvalue hv
      have hlength := hcolon.length_le
      have hlength' := hv.length_le
      obtain ⟨hmore, hclose⟩ := ih (by omega) hms
      refine ⟨Takes.after (Takes.trans hv hmore fun m n hfits hfits' => ?_) (hcolon.after hkey),
        hclose⟩
      exact fits_cons hmono Prod.snd hfits hfits'

end Containers

/-! Readers of values of one type. -/

theorem refuse_ne_ok {expected : String} {a : α} : Typed.refuse expected bytes ≠ .ok a := by
  intro h
  unfold Typed.refuse at h
  split at h
  · cases h
  · dsimp only at h
    -- the words null, true and false
    iterate 3
      split at h
      · simp only [bind_eq_ok, Prod.exists] at h
        obtain ⟨_, _, -, h⟩ := h
        cases h
    -- a number with its sign, and one without
    iterate 2
      split at h
      · simp only [bind_eq_ok, Prod.exists] at h
        obtain ⟨n, _, -, h⟩ := h
        cases n <;> cases h
    split at h
    · simp only [bind_eq_ok, Prod.exists] at h
      obtain ⟨_, _, -, h⟩ := h
      cases h
    · split at h
      · cases h
      · split at h <;> cases h

/-- A word behind blanks, of which the first letter is read by itself. -/
theorem spans_word {c : Char} {cs : List Char}
    (hcs : (c :: cs).all (byte · ∉ structural) = true) {tail : Bytes}
    (hb : skipBlanks bytes = byte c :: tail) {u : Unit} (h : ident cs tail = .ok (u, rest)) :
    Spans 0 bytes rest := by
  simp only [List.all_cons, Bool.and_eq_true, decide_eq_true_eq] at hcs
  exact ((spans_ident hcs.2 h).after (spans_cons hcs.1 tail)).after (spans_of_skipBlanks hb)

theorem accepts_optional {value : Bytes → Except Failure (α × Bytes)} {fits : α → Nat → Prop}
    (hvalue : Accepts budget fits value) :
    Accepts budget (fun o n => ∀ a, o = some a → fits a n) (Typed.optional value) := by
  intro bytes o rest h
  unfold Typed.optional at h
  split at h
  · rename_i b tail hb
    split at h
    · rename_i hnull
      simp only [bind_eq_ok, Prod.exists] at h
      obtain ⟨u, r, hident, h⟩ := h
      cases h
      subst hnull
      exact .of_spans (spans_word (by decide) hb hident) (by simp)
    · simp only [bind_eq_ok, Prod.exists] at h
      obtain ⟨v, r, hv, h⟩ := h
      cases h
      obtain ⟨n, hn, hspans, hfits⟩ := hvalue hv
      exact ⟨n, hn, hspans.after (spans_of_skipBlanks hb), fun a ha => Option.some.inj ha ▸ hfits⟩
  · cases h

theorem spans_null {u : Unit} (h : Typed.null bytes = .ok (u, rest)) : Spans 0 bytes rest := by
  unfold Typed.null at h
  split at h
  · rename_i b tail hb
    split at h
    · rename_i hnull
      subst hnull
      exact spans_word (by decide) hb h
    · exact absurd h refuse_ne_ok
  · cases h

theorem spans_typedString {expected s : String} (h : Typed.string expected bytes = .ok (s, rest)) :
    Spans 0 bytes rest := by
  unfold Typed.string at h
  split at h
  · rename_i b tail hb
    split at h
    · rename_i hquote
      subst hquote
      exact (spans_string h).after (spans_of_skipBlanks hb)
    · exact absurd h refuse_ne_ok
  · cases h

theorem spans_bool {b : Bool} (h : Typed.bool bytes = .ok (b, rest)) : Spans 0 bytes rest := by
  unfold Typed.bool at h
  split at h
  · rename_i b tail hb
    split at h
    · rename_i ht
      simp only [bind_eq_ok, Prod.exists] at h
      obtain ⟨u, r, hident, h⟩ := h
      cases h
      subst ht
      exact spans_word (by decide) hb hident
    · split at h
      · rename_i hf
        simp only [bind_eq_ok, Prod.exists] at h
        obtain ⟨u, r, hident, h⟩ := h
        cases h
        subst hf
        exact spans_word (by decide) hb hident
      · exact absurd h refuse_ne_ok
  · cases h

theorem eq_of_checkNatural {n : JsonNumber} {m : UInt32}
    (h : Typed.checkNatural n bytes = .ok (m, rest)) : rest = bytes := by
  cases n with
  | word w =>
    rw [Typed.checkNatural] at h
    split at h
    · cases h
      rfl
    · cases h
  | double x => cases h

theorem spans_natural {n : UInt32} (h : Typed.natural bytes = .ok (n, rest)) :
    Spans 0 bytes rest := by
  unfold Typed.natural at h
  split at h
  · rename_i b tail hb
    have hblanks := spans_of_skipBlanks hb
    split at h
    · rename_i hminus
      simp only [bind_eq_ok, Prod.exists] at h
      obtain ⟨x, r, hnumber, h⟩ := h
      have hfront := (spans_cons (hminus ▸ by decide) tail).after hblanks
      exact eq_of_checkNatural h ▸ (spans_number hnumber).after hfront
    · split at h
      · simp only [bind_eq_ok, Prod.exists] at h
        obtain ⟨x, r, hnumber, h⟩ := h
        exact eq_of_checkNatural h ▸ (spans_number hnumber).after hblanks
      · exact absurd h refuse_ne_ok
  · cases h

/-- A container is entered with a budget that is left for its values. -/
theorem enter_eq_ok {bracket : Char} {expected : String}
    {inner : Nat → Bytes → Except Failure (α × Bytes)} {a : α}
    (h : Typed.enter bracket expected budget bytes inner = .ok (a, rest)) :
    ∃ n tail, budget = n + 1 ∧ skipBlanks bytes = byte bracket :: tail ∧
      inner n tail = .ok (a, rest) := by
  unfold Typed.enter at h
  split at h
  · rename_i b tail hb
    split at h
    · rename_i hbracket
      subst hbracket
      cases budget with
      | zero => cases h
      | succ n => exact ⟨n, tail, rfl, hb, h⟩
    · exact absurd h refuse_ne_ok
  · cases h

def FitInside (fits : α → Nat → Prop) (parts : List α) (n : Nat) : Prop :=
  0 < n ∧ ∀ a ∈ parts, fits a (n - 1)

section Enter

variable {fits : α → Nat → Prop} (hmono : ∀ ⦃a m n⦄, m ≤ n → fits a m → fits a n)
  (expected : String) {value : Nat → Bytes → Except Failure (α × Bytes)}
  (hvalue : ∀ n, budget = n + 1 → Accepts n fits (value n))

include hmono hvalue

theorem accepts_array : Accepts budget (FitInside fits)
    (fun bytes => Typed.enter '[' expected budget bytes fun n => Read.array (value n)) := by
  intro bytes vs rest h
  obtain ⟨n, tail, rfl, hskip, h⟩ := enter_eq_ok h
  have hfront := spans_of_skipBlanks hskip
  simp only [array, bind_eq_ok, Prod.exists] at h
  obtain ⟨vs', r, hitems, _, r', hend, h⟩ := h
  cases h
  have hinner := (accepts_items hmono (hvalue n rfl) _ _ _ hitems).before (spans_endArray hend)
  exact (hinner.bracket (.inl rfl) (.inl rfl) fun m hfits => ⟨Nat.succ_pos m, hfits⟩).after hfront

theorem accepts_object : Accepts budget
    (fun ms n => (Members.keys ms).Nodup ∧ FitInside (fun p => fits p.2) ms n)
    (fun bytes => Typed.enter '\x7b' expected budget bytes fun n => Read.object (value n)) := by
  intro bytes ms rest h
  obtain ⟨n, tail, rfl, hskip, h⟩ := enter_eq_ok h
  have hfront := spans_of_skipBlanks hskip
  simp only [object, bind_eq_ok, Prod.exists] at h
  obtain ⟨ps, r, hmembers, h⟩ := h
  cases h
  obtain ⟨hinner, tail', rfl⟩ := accepts_members hmono (hvalue n rfl) (Nat.lt_succ_self _) hmembers
  refine (hinner.bracket (.inr rfl) (.inr rfl) fun m hfits => ?_).after hfront
  exact ⟨Members.nodup_keys_ofPairs ps, Nat.succ_pos m,
    fun p hp => hfits p (Members.mem_of_mem_ofPairs hp)⟩

end Enter

end SchemaByExample.Read
