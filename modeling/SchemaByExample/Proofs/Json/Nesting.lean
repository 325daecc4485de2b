import SchemaByExample.Json.Reader
import SchemaByExample.Proofs.Json.StringLiteral

/-! How deep the brackets of a text nest. Brackets count between tokens, not in string
literals. What a reader of literals passes over leaves the count as it is. -/
namespace SchemaByExample

open Read Literal

/-- Where a byte stands: between tokens, in a string literal, or behind a backslash in one. -/
inductive Zone where
  | outside | literal | escaped

structure Cursor where
  depth : Nat
  zone : Zone

namespace Cursor

def step (c : Cursor) (b : UInt8) : Cursor :=
  match c.zone with
  | .outside =>
    if b = byte '"' then { c with zone := .literal }
    else if b = byte '[' ∨ b = byte '\x7b' then { c with depth := c.depth + 1 }
    else if b = byte ']' ∨ b = byte '\x7d' then { c with depth := c.depth - 1 }
    else c
  | .literal =>
    if b = byte '"' then { c with zone := .outside }
    else if b = byte '\\' then { c with zone := .escaped }
    else c
  | .escaped => { c with zone := .literal }

def run (c : Cursor) (bytes : Bytes) : Cursor := bytes.foldl step c

/-- The most brackets that are open at a place from the cursor on. -/
def peak (c : Cursor) : Bytes → Nat
  | [] => c.depth
  | b :: rest => max c.depth ((c.step b).peak rest)

theorem depth_le_peak (c : Cursor) (bytes : Bytes) : c.depth ≤ c.peak bytes := by
  cases bytes with
  | nil => exact Nat.le_refl _
  | cons b rest => exact Nat.le_max_left _ _

theorem run_append (c : Cursor) (front rest : Bytes) :
    c.run (front ++ rest) = (c.run front).run rest := List.foldl_append

theorem peak_append (c : Cursor) (front rest : Bytes) :
    c.peak (front ++ rest) = max (c.peak front) ((c.run front).peak rest) := by
  induction front generalizing c with
  | nil => exact (Nat.max_eq_right (depth_le_peak c rest)).symm
  | cons b front ih =>
    rw [List.cons_append, peak, ih (c.step b), ← Nat.max_assoc]
    rfl

end Cursor

def nesting (bytes : Bytes) : Nat := Cursor.peak ⟨0, .outside⟩ bytes

example : nesting (Utf8.ofString "[\"]\\\"\", \x7b\"[[[\": []\x7d] ") = 3 := by decide

/-- The bytes lead from one zone to the other. They leave as many brackets open as there were,
and on the way at most `n` more are open at once. -/
def Nests (z z' : Zone) (n : Nat) (bytes : Bytes) : Prop :=
  ∀ d, Cursor.run ⟨d, z⟩ bytes = ⟨d, z'⟩ ∧ Cursor.peak ⟨d, z⟩ bytes = d + n

namespace Nests

variable {z z' z'' : Zone} {m n : Nat} {front bytes : Bytes}

theorem nil (z : Zone) : Nests z z 0 [] := fun _ => ⟨rfl, rfl⟩

theorem singleton {b : UInt8} (h : ∀ d, Cursor.step ⟨d, z⟩ b = ⟨d, z'⟩) : Nests z z' 0 [b] := by
  intro d
  have hpeak : Cursor.peak ⟨d, z⟩ [b] = max d (Cursor.step ⟨d, z⟩ b).depth := rfl
  rw [hpeak, h d]
  exact ⟨h d, Nat.max_self d⟩

theorem append (h : Nests z z' m front) (h' : Nests z' z'' n bytes) :
    Nests z z'' (max m n) (front ++ bytes) := by
  intro d
  rw [Cursor.run_append, Cursor.peak_append, (h d).1, (h d).2, (h' d).2]
  exact ⟨(h' d).1, by omega⟩

/-- A pair of brackets around whole tokens. -/
theorem bracket {b c : UInt8} (hb : b = byte '[' ∨ b = byte '\x7b')
    (hc : c = byte ']' ∨ c = byte '\x7d') (h : Nests .outside .outside n bytes) :
    Nests .outside .outside (n + 1) (b :: (bytes ++ [c])) := by
  have hopen (d : Nat) : Cursor.step ⟨d, .outside⟩ b = ⟨d + 1, .outside⟩ := by
    obtain rfl | rfl := hb <;> rfl
  have hclose (d : Nat) : Cursor.step ⟨d + 1, .outside⟩ c = ⟨d, .outside⟩ := by
    obtain rfl | rfl := hc <;> rfl
  intro d
  have hrun : Cursor.run ⟨d, .outside⟩ (b :: (bytes ++ [c])) =
      ((Cursor.step ⟨d, .outside⟩ b).run bytes).step c := by
    rw [Cursor.run, List.foldl_cons, List.foldl_append]
    rfl
  have hpeak : Cursor.peak ⟨d, .outside⟩ (b :: (bytes ++ [c])) =
      max d (Cursor.peak (Cursor.step ⟨d, .outside⟩ b) (bytes ++ [c])) := rfl
  have hlast : Cursor.peak ⟨d + 1, .outside⟩ [c] = d + 1 := by
    rw [Cursor.peak, hclose]
    exact Nat.max_eq_left (Nat.le_succ d)
  rw [hrun, hpeak, Cursor.peak_append, hopen, (h (d + 1)).1, (h (d + 1)).2, hclose, hlast]
  exact ⟨rfl, by omega⟩

theorem nesting_eq (h : Nests .outside .outside n bytes) : nesting bytes = n := by
  rw [nesting, (h 0).2, Nat.zero_add]

end Nests

def Leads (z z' : Zone) (n : Nat) (bytes rest : Bytes) : Prop :=
  ∃ front, bytes = front ++ rest ∧ Nests z z' n front

abbrev Spans : Nat → Bytes → Bytes → Prop := Leads .outside .outside

namespace Leads

variable {z z' z'' : Zone} {m n : Nat} {bytes mid rest : Bytes}

theorem refl (z : Zone) (bytes : Bytes) : Leads z z 0 bytes bytes := ⟨[], rfl, .nil z⟩

theorem trans (h : Leads z z' m bytes mid) (h' : Leads z' z'' n mid rest) :
    Leads z z'' (max m n) bytes rest := by
  obtain ⟨front, rfl, hf⟩ := h
  obtain ⟨front', rfl, hf'⟩ := h'
  exact ⟨front ++ front', (List.append_assoc ..).symm, hf.append hf'⟩

/-- Literals before the brackets, or behind them, do not count. -/
theorem after (h : Leads z' z'' n mid rest) (h0 : Leads z z' 0 bytes mid) :
    Leads z z'' n bytes rest := by
  simpa using h0.trans h

theorem before (h : Leads z z' n bytes mid) (h0 : Leads z' z'' 0 mid rest) :
    Leads z z'' n bytes rest := by
  simpa using h.trans h0

theorem step {b : UInt8} (h : ∀ d, Cursor.step ⟨d, z⟩ b = ⟨d, z'⟩) (rest : Bytes) :
    Leads z z' 0 (b :: rest) rest := ⟨[b], rfl, .singleton h⟩

theorem length_le (h : Leads z z' n bytes rest) : rest.length ≤ bytes.length := by
  obtain ⟨front, rfl, -⟩ := h
  simp

/-- What leads to the end of a text leads over the whole text. -/
theorem nests (h : Leads z z' n bytes []) : Nests z z' n bytes := by
  obtain ⟨front, rfl, hf⟩ := h
  rwa [List.append_nil]

theorem bracket {b c : UInt8} (hb : b = byte '[' ∨ b = byte '\x7b')
    (hc : c = byte ']' ∨ c = byte '\x7d') (h : Spans n bytes (c :: rest)) :
    Spans (n + 1) (b :: bytes) rest := by
  obtain ⟨front, rfl, hf⟩ := h
  exact ⟨b :: (front ++ [c]), by simp, hf.bracket hb hc⟩

end Leads

/-! Bytes that stand for themselves between tokens. -/

def structural : List UInt8 :=
  [byte '"', byte '[', byte '\x7b', byte ']', byte '\x7d']

theorem step_outside {b : UInt8} (h : b ∉ structural) (d : Nat) :
    Cursor.step ⟨d, .outside⟩ b = ⟨d, .outside⟩ := by
  simp only [structural, List.mem_cons, not_or] at h
  simp [Cursor.step, h]

theorem nests_of_notMem {bytes : Bytes} (h : ∀ b ∈ bytes, b ∉ structural) :
    Nests .outside .outside 0 bytes := by
  induction bytes with
  | nil => exact .nil _
  | cons b bytes ih =>
    obtain ⟨hb, hbytes⟩ := List.forall_mem_cons.mp h
    exact (Nests.singleton (step_outside hb)).append (ih hbytes)

theorem spans_cons {b : UInt8} (h : b ∉ structural) (rest : Bytes) :
    Spans 0 (b :: rest) rest := .step (step_outside h) rest

theorem notMem_structural {p : UInt8 → Bool} (hp : (structural.all fun c => !p c) = true)
    {b : UInt8} (h : p b = true) : b ∉ structural := by
  intro hm
  have hb := List.all_eq_true.mp hp b hm
  rw [h] at hb
  cases hb

theorem spans_dropWhile {p : UInt8 → Bool} (hp : (structural.all fun c => !p c) = true)
    (bytes : Bytes) : Spans 0 bytes (bytes.dropWhile p) := by
  refine ⟨bytes.takeWhile p, List.takeWhile_append_dropWhile.symm, nests_of_notMem fun b hb => ?_⟩
  exact notMem_structural hp (List.all_eq_true.mp List.all_takeWhile b hb)

theorem spans_skipBlanks (bytes : Bytes) : Spans 0 bytes (skipBlanks bytes) :=
  spans_dropWhile (by decide) bytes

theorem spans_of_skipBlanks {b : UInt8} {bytes rest : Bytes} (h : skipBlanks bytes = b :: rest) :
    Spans 0 bytes (b :: rest) := h ▸ spans_skipBlanks bytes

namespace Literal

variable {bytes rest : Bytes}

theorem spans_ident {cs : List Char} (hcs : cs.all (byte · ∉ structural) = true) {u : Unit}
    (h : ident cs bytes = .ok (u, rest)) : Spans 0 bytes rest := by
  induction cs generalizing bytes with
  | nil =>
    cases h
    exact .refl _ _
  | cons c cs ih =>
    cases bytes with
    | nil => cases h
    | cons b bytes =>
      simp only [List.all_cons, Bool.and_eq_true, decide_eq_true_eq] at hcs
      rw [ident] at h
      split at h
      · rename_i hb
        exact (ih hcs.2 h).after (spans_cons (hb ▸ hcs.1) bytes)
      · cases h

/-! String literals. -/

theorem leads_literal {b : UInt8} (hq : b ≠ byte '"') (hs : b ≠ byte '\\') (rest : Bytes) :
    Leads .literal .literal 0 (b :: rest) rest :=
  .step (fun d => by simp [Cursor.step, hq, hs]) rest

theorem leads_backslash (rest : Bytes) : Leads .literal .escaped 0 (byte '\\' :: rest) rest :=
  .step (fun _ => rfl) rest

theorem leads_escaped (b : UInt8) (rest : Bytes) : Leads .escaped .literal 0 (b :: rest) rest :=
  .step (fun _ => rfl) rest

theorem leads_hexDigit {b : UInt8} {d : Nat} (h : hexDigit? b = some d) (rest : Bytes) :
    Leads .literal .literal 0 (b :: rest) rest := by
  have hq : hexDigit? (byte '"') = none := by decide
  have hs : hexDigit? (byte '\\') = none := by decide
  refine leads_literal ?_ ?_ rest
  · rintro rfl
    exact Option.some_ne_none d (h.symm.trans hq)
  · rintro rfl
    exact Option.some_ne_none d (h.symm.trans hs)

theorem leads_hexEscape {n : Nat} (h : hexEscape bytes = .ok (n, rest)) :
    Leads .literal .literal 0 bytes rest := by
  unfold hexEscape at h
  split at h
  · split at h
    · rename_i ha hb hc hd
      cases h
      exact (((leads_hexDigit hd _).after (leads_hexDigit hc _)).after
        (leads_hexDigit hb _)).after (leads_hexDigit ha _)
    · cases h
  · cases h

theorem eq_cons_of_expectInPair {c : Char} {u : Unit} (h : expectInPair c bytes = .ok (u, rest)) :
    bytes = byte c :: rest := by
  cases bytes with
  | nil => cases h
  | cons b bytes =>
    rw [expectInPair] at h
    split at h
    · rename_i hb
      cases h
      rw [hb]
    · cases h

theorem leads_unicodeEscape {c : Char} (h : unicodeEscape bytes = .ok (c, rest)) :
    Leads .literal .literal 0 bytes rest := by
  simp only [unicodeEscape, bind_eq_ok, Prod.exists] at h
  obtain ⟨n, r, hr, h⟩ := h
  have hfirst := leads_hexEscape hr
  split at h
  · cases h
  · split at h
    · simp only [bind_eq_ok, Prod.exists] at h
      obtain ⟨_, r1, h1, _, r2, h2, low, r3, h3, h⟩ := h
      obtain rfl := eq_cons_of_expectInPair h1
      obtain rfl := eq_cons_of_expectInPair h2
      have hsecond := ((leads_hexEscape h3).after (leads_escaped (byte 'u') r2)).after
        (leads_backslash _)
      split at h
      · obtain ⟨-, rfl⟩ := Prod.mk.inj (Except.ok.inj h)
        exact hsecond.after hfirst
      · cases h
    · cases h
      exact hfirst

theorem leads_escape {c : Char} (h : escape bytes = .ok (c, rest)) :
    Leads .escaped .literal 0 bytes rest := by
  cases bytes with
  | nil => cases h
  | cons b bytes =>
    have hb := leads_escaped b bytes
    simp only [escape] at h
    -- eight escapes of one character, then the one in hexadecimal digits
    iterate 8
      split at h
      · cases h
        exact hb
    split at h
    · exact (leads_unicodeEscape h).after hb
    · cases h

theorem leads_content {fuel : Nat} {bs : Bytes} (h : content fuel bytes = .ok (bs, rest)) :
    Leads .literal .outside 0 bytes rest := by
  induction fuel generalizing bytes bs with
  | zero => cases h
  | succ fuel ih =>
    cases bytes with
    | nil => cases h
    | cons b bytes =>
      rw [content] at h
      split at h
      · rename_i hq
        cases h
        exact hq ▸ .step (fun _ => rfl) _
      · rename_i hq
        split at h
        · rename_i hs
          simp only [bind_eq_ok, Prod.exists] at h
          obtain ⟨c, r, hescape, bs', _, hmore, h⟩ := h
          cases h
          exact ((ih hmore).after (leads_escape hescape)).after (hs ▸ leads_backslash bytes)
        · rename_i hs
          split at h
          · cases h
          · simp only [bind_eq_ok, Prod.exists] at h
            obtain ⟨bs', _, hmore, h⟩ := h
            cases h
            exact (ih hmore).after (leads_literal hq hs bytes)

theorem leads_string {s : String} (h : string bytes = .ok (s, rest)) :
    Leads .literal .outside 0 bytes rest := by
  simp only [string, bind_eq_ok, Prod.exists] at h
  obtain ⟨bs, r, hcontent, h⟩ := h
  split at h
  · cases h
    exact leads_content hcontent
  · cases h

theorem spans_string {s : String} (h : string bytes = .ok (s, rest)) :
    Spans 0 (byte '"' :: bytes) rest := (leads_string h).after (.step (fun _ => rfl) bytes)

/-! Number literals. -/

theorem spans_digits (bytes : Bytes) : Spans 0 bytes (digits bytes).2 :=
  spans_dropWhile (by decide) bytes

variable {n : JsonNumber}

theorem eq_of_scaled {m : Mantissa} {e : Int} (h : m.scaled e bytes = .ok (n, rest)) :
    rest = bytes := by
  rw [Mantissa.scaled] at h
  split at h
  · cases h
    rfl
  · cases h

/-- A sign is skipped, if there is one. -/
theorem spans_exponent {m : Mantissa} (h : exponent m bytes = .ok (n, rest)) :
    Spans 0 bytes rest := by
  unfold exponent at h
  split at h
  rename_i negative unsigned hsign
  have hspans : Spans 0 bytes unsigned := by
    split at hsign
    · rename_i b bytes
      have hb : b = byte '+' ∨ b = byte '-' → Spans 0 (b :: bytes) bytes := by
        rintro (rfl | rfl) <;> exact spans_cons (by decide) bytes
      split at hsign
      · rename_i hplus
        cases hsign
        exact hb (.inl hplus)
      · split at hsign
        · rename_i hminus
          cases hsign
          exact hb (.inr hminus)
        · cases hsign
          exact .refl _ _
    · cases hsign
      exact .refl _ _
  split at h
  · cases h
  · split at h
    · split at h
      rename_i b bytes _ _ ds tail hds
      have hdigits := spans_digits (b :: bytes)
      rw [hds] at hdigits
      dsimp only at h
      split at h
      · cases h
      · exact eq_of_scaled h ▸ hdigits.after hspans
    · cases h

theorem spans_afterDigits {m : Mantissa} (h : afterDigits m bytes = .ok (n, rest)) :
    Spans 0 bytes rest := by
  unfold afterDigits at h
  split at h
  · rename_i b bytes
    split at h
    · rename_i he
      refine (spans_exponent h).after (spans_cons ?_ bytes)
      obtain rfl | rfl := he <;> decide
    · exact eq_of_scaled h ▸ .refl _ _
  · exact eq_of_scaled h ▸ .refl _ _

theorem eq_of_integer {m : Mantissa} (h : integer m bytes = .ok (n, rest)) : rest = bytes := by
  simp only [integer] at h
  split at h
  · split at h
    · cases h
      rfl
    · exact eq_of_scaled h
  · exact eq_of_scaled h

theorem spans_afterWhole {m : Mantissa} (h : afterWhole m bytes = .ok (n, rest)) :
    Spans 0 bytes rest := by
  unfold afterWhole at h
  split at h
  · exact eq_of_integer h ▸ .refl _ _
  · rename_i b bytes
    split at h
    · rename_i hdot
      have hb : Spans 0 (b :: bytes) bytes := spans_cons (hdot ▸ by decide) bytes
      have hdigits := spans_digits bytes
      split at h
      · cases h
      · cases h
      · rename_i fraction after hne heq
        rw [heq] at hdigits
        exact ((spans_afterDigits h).after hdigits).after hb
    · split at h
      · rename_i he
        refine (spans_exponent h).after (spans_cons ?_ bytes)
        obtain rfl | rfl := he <;> decide
      · exact eq_of_integer h ▸ .refl _ _

theorem spans_number {negative : Bool} (h : number negative bytes = .ok (n, rest)) :
    Spans 0 bytes rest := by
  unfold number at h
  split at h
  · cases h
  · rename_i b bytes
    split at h
    · rename_i hzero
      refine Leads.after ?_ (spans_cons (hzero ▸ by decide) bytes)
      split at h
      · split at h
        · cases h
        · exact spans_afterWhole h
      · exact spans_afterWhole h
    · split at h
      · split at h
        rename_i whole tail hwhole
        have hdigits := spans_digits (b :: bytes)
        rw [hwhole] at hdigits
        exact (spans_afterWhole h).after hdigits
      · cases h

end Literal

end SchemaByExample
