import SchemaByExample.Proofs.Json.Parts
import SchemaByExample.Proofs.Json.Reading

/-! Readers of values of one type take the texts of the values of that type. -/
namespace SchemaByExample.Read

open Json Literal

variable {α : Type}

/-- A scalar fits into every budget. -/
theorem Reads.of_scalar {value : Bytes → Except Failure (α × Bytes)} {v : Json} {a : α}
    (h : Reads value v True a) (hv : v.isContainer = false) (budget : Nat) :
    Reads value v (v.depth ≤ budget) a := by
  have hd : v.depth = 0 := by
    cases v with
    | array items => simp [isContainer] at hv
    | object members => simp [isContainer] at hv
    | _ => rfl
  intro bl text rest hbl hw hr
  exact (h hbl hw hr).congr (by simp [hd])

theorem reads_string (expected : String) (s : String) :
    Reads (Typed.string expected) (.string s) True s := by
  intro bl text rest hbl hw _
  refine .of_eq ?_
  cases hw
  have hquote : isBlank (byte '"') = false := by decide
  have hs := string_quote s rest
  rw [encode_quote] at hs ⊢
  simp only [Typed.string, skipBlanks_append hbl, List.cons_append, skipBlanks_cons hquote, if_true]
  exact hs

theorem reads_bool (b : Bool) : Reads Typed.bool (.bool b) True b := by
  intro bl text rest hbl hw _
  refine .of_eq ?_
  cases hw with
  | true =>
    have ht : isBlank (byte 't') = false := by decide
    have htext : Utf8.encode "true".toList = [byte 't', byte 'r', byte 'u', byte 'e'] := rfl
    simp only [Typed.bool, skipBlanks_append hbl, htext, List.cons_append, skipBlanks_cons ht,
      ident, if_true, ok_bind, List.nil_append]
  | false =>
    have hf : isBlank (byte 'f') = false := by decide
    have hne : byte 'f' ≠ byte 't' := by decide
    have htext : Utf8.encode "false".toList =
        [byte 'f', byte 'a', byte 'l', byte 's', byte 'e'] := rfl
    simp only [Typed.bool, skipBlanks_append hbl, htext, List.cons_append, skipBlanks_cons hf,
      if_neg hne, ident, if_true, ok_bind, List.nil_append]

theorem reads_natural (n : UInt32) : Reads Typed.natural (.natural n) True n := by
  intro bl text rest hbl hw hr
  refine .of_eq ?_
  have hblank (bytes : Bytes) : Typed.natural (bl ++ bytes) = Typed.natural bytes := by
    simp only [Typed.natural, skipBlanks_append hbl]
  cases hw
  have hchars : numberChars (.word ⟨n.toNat, by omega, by have := n.toNat_lt; omega⟩) =
      Nat.toDigits 10 n.toNat := by
    rw [numberChars, intChars, if_neg (Int.not_lt.mpr (Int.natCast_nonneg _)), Int.natAbs_natCast]
  rw [hblank, hchars, natural_toDigits n hr]

/-- An optional value that is not null is read as the value. -/
theorem reads_optional {value : Bytes → Except Failure (α × Bytes)} {v : Json} {fits : Prop}
    {a : α} (h : Reads value v fits a) (hv : v.isNull = false) :
    Reads (Typed.optional value) v fits (some a) := by
  intro bl text rest hbl hw hr
  obtain ⟨b, t, rfl, ho⟩ := opens_of_written hw
  obtain ⟨hb, -, hne⟩ := of_opens ho
  have hvalue := h .nil hw hr
  simp only [Typed.optional, skipBlanks_append hbl, List.cons_append, skipBlanks_cons hb,
    if_neg (hne hv)]
  exact hvalue.bind_ok rfl

section Enter

variable {bracket : Char} (hb : isBlank (byte bracket) = false) (expected : String) {bl : Bytes}
  (hbl : Blanks bl) (rest : Bytes) (inner : Nat → Bytes → Except Failure (α × Bytes))

include hb hbl

theorem enter_zero : Typed.enter bracket expected 0 (bl ++ byte bracket :: rest) inner =
    failPast .recursionLimit (byte bracket :: rest) := by
  simp only [Typed.enter, skipBlanks_append hbl, skipBlanks_cons hb, if_true]

theorem enter_succ (n : Nat) :
    Typed.enter bracket expected (n + 1) (bl ++ byte bracket :: rest) inner = inner n rest := by
  simp only [Typed.enter, skipBlanks_append hbl, skipBlanks_cons hb, if_true]

end Enter

variable {ι : Type} {value : Nat → Bytes → Except Failure (α × Bytes)} {source : ι → Json}
  {result : ι → α}

theorem reads_array (expected : String) (budget : Nat) {xs : List ι}
    (h : ∀ n, budget = n + 1 → ∀ x ∈ xs,
      Reads (value n) (source x) ((source x).depth ≤ n) (result x)) :
    Reads (fun bytes => Typed.enter '[' expected budget bytes fun n => Read.array (value n))
      (.array (xs.map source)) ((Json.array (xs.map source)).depth ≤ budget) (xs.map result) := by
  intro bl text rest hbl hw hr
  have hb : isBlank (byte '[') = false := by decide
  cases hw with
  | array hitems =>
    cases budget with
    | zero =>
      simp only [List.cons_append, enter_zero hb expected hbl]
      exact ⟨fun hd => by simp [depth] at hd, fun _ => ⟨_, rfl, rfl⟩⟩
    | succ n =>
      simp only [List.cons_append, enter_succ hb expected hbl]
      refine (array_written (h n rfl) hitems rest).congr ?_
      rw [depth_array_le_succ, List.forall_mem_map]

theorem reads_object {source : String × ι → Json} {result : String × ι → α} (expected : String)
    (budget : Nat) {ps : List (String × ι)}
    (hk : (Members.keys ps).Nodup)
    (h : ∀ n, budget = n + 1 → ∀ p ∈ ps,
      Reads (value n) (source p) ((source p).depth ≤ n) (result p)) :
    Reads (fun bytes => Typed.enter '\x7b' expected budget bytes fun n => Read.object (value n))
      (.object (ps.map fun p => (p.1, source p)))
      ((Json.object (ps.map fun p => (p.1, source p))).depth ≤ budget)
      (ps.map fun p => (p.1, result p)) := by
  intro bl text rest hbl hw hr
  have hb : isBlank (byte '\x7b') = false := by decide
  have hpairs : Members.ofPairs (ps.map fun p => (p.1, result p)) =
      ps.map fun p => (p.1, result p) := by
    apply Members.ofPairs_eq_self
    simpa [Members.keys, Function.comp_def] using hk
  cases hw with
  | object hmembers =>
    cases budget with
    | zero =>
      simp only [List.cons_append, enter_zero hb expected hbl]
      exact ⟨fun hd => by simp [depth] at hd, fun _ => ⟨_, rfl, rfl⟩⟩
    | succ n =>
      simp only [List.cons_append, enter_succ hb expected hbl]
      have hread : Yields (∀ p ∈ ps, (source p).depth ≤ n) (Read.object (value n) _)
          (Members.ofPairs (ps.map fun p => (p.1, result p)), rest) :=
        object_written (h n rfl) hmembers rest
      rw [hpairs] at hread
      refine hread.congr ?_
      rw [depth_object_le_succ, List.forall_mem_map]

end SchemaByExample.Read
