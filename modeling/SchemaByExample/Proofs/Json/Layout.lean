import Mathlib.Data.Bool.AllAny
import SchemaByExample.Proofs.Json.WrittenNesting
import SchemaByExample.Text.Split

/-! The layouts of a value compared. Compact text has no control characters, so it is one
line, and it is what remains of the pretty text when the white space between tokens goes. -/
namespace SchemaByExample

def Zone.next (c : Char) : Zone → Zone
  | .outside => if c = '"' then .literal else .outside
  | .literal => if c = '"' then .outside else if c = '\\' then .escaped else .literal
  | .escaped => .literal

namespace Json

open Literal

/-! The characters of compact text. -/

def Printable (c : Char) : Prop := 0x20 ≤ c.toNat

instance (c : Char) : Decidable (Printable c) := Nat.decLe 0x20 c.toNat

theorem printable_of_numeric {c : Char} (h : Numeric c) : Printable c := by
  obtain hd | hmark := h
  · exact Nat.le_trans (by decide) (isDigit_bounds hd).1
  · simp only [List.mem_cons, List.not_mem_nil, or_false] at hmark
    obtain rfl | rfl | rfl | rfl := hmark <;> decide

theorem printable_hexPair {n : Nat} (h : n < 32) : ∀ c ∈ hexPair n, Printable c := by
  have hall : ∀ n < 32, (hexPair n).all (fun c => decide (Printable c)) = true := by decide
  exact List.all_iff_forall_prop.mp (hall n h)

theorem printable_escapeChar (c : Char) : ∀ d ∈ escapeChar c, Printable d := by
  rw [escapeChar]
  repeat' split
  any_goals exact List.all_iff_forall_prop.mp rfl
  · rename_i hcontrol
    simp only [List.forall_mem_cons]
    exact ⟨by decide, by decide, by decide, by decide, printable_hexPair hcontrol⟩
  · rename_i hcontrol
    rw [List.forall_mem_singleton]
    exact Nat.not_lt.mp hcontrol

theorem printable_quote (s : String) : ∀ c ∈ quote s, Printable c := by
  rw [quote, List.forall_mem_append, List.forall_mem_cons, List.forall_mem_singleton]
  refine ⟨⟨by decide, fun c hc => ?_⟩, by decide⟩
  obtain ⟨d, -, hc⟩ := List.mem_flatMap.mp hc
  exact printable_escapeChar d c hc

mutual

/-- The compact layout puts nothing between tokens but a colon. -/
theorem printable_compact (d : Nat) : (v : Json) → ∀ c ∈ render .compact d v, Printable c
  | .null => by simp only [render]; exact List.all_iff_forall_prop.mp (by decide)
  | .bool true => by simp only [render]; exact List.all_iff_forall_prop.mp (by decide)
  | .bool false => by simp only [render]; exact List.all_iff_forall_prop.mp (by decide)
  | .number n => fun c hc => printable_of_numeric (numeric_numberChars n c hc)
  | .string s => printable_quote s
  | .array [] => by simp only [render]; exact List.all_iff_forall_prop.mp (by decide)
  | .array (v :: rest) => by
    simp only [render, Spacing.compact, List.forall_mem_append, List.forall_mem_cons]
    exact ⟨⟨⟨⟨⟨by decide, by simp⟩, printable_compact (d + 1) v⟩, printable_compactItems d rest⟩,
      by simp⟩, by decide, by simp⟩
  | .object [] => by simp only [render]; exact List.all_iff_forall_prop.mp (by decide)
  | .object ((k, v) :: rest) => by
    simp only [render, Spacing.compact, List.forall_mem_append, List.forall_mem_cons]
    exact ⟨⟨⟨⟨⟨⟨⟨by decide, by simp⟩, printable_quote k⟩, by decide, by simp⟩,
      printable_compact (d + 1) v⟩, printable_compactMembers d rest⟩, by simp⟩, by decide, by simp⟩

theorem printable_compactItems (d : Nat) : (items : List Json) →
    ∀ c ∈ renderItems .compact d items, Printable c
  | [] => by simp [renderItems]
  | v :: rest => by
    simp only [renderItems, Spacing.compact, List.forall_mem_append, List.forall_mem_cons]
    exact ⟨⟨⟨by decide, by simp⟩, printable_compact (d + 1) v⟩, printable_compactItems d rest⟩

theorem printable_compactMembers (d : Nat) : (members : List (String × Json)) →
    ∀ c ∈ renderMembers .compact d members, Printable c
  | [] => by simp [renderMembers]
  | (k, v) :: rest => by
    simp only [renderMembers, Spacing.compact, List.forall_mem_append, List.forall_mem_cons]
    exact ⟨⟨⟨⟨⟨by decide, by simp⟩, printable_quote k⟩, by decide, by simp⟩,
      printable_compact (d + 1) v⟩, printable_compactMembers d rest⟩

end

theorem printable_toList_compact (v : Json) : ∀ c ∈ v.compact.toList, Printable c := by
  rw [compact, String.toList_ofList]
  exact printable_compact 0 v

theorem lineFeed_notMem_compact (v : Json) : '\n' ∉ v.compact.toList :=
  fun h => absurd (printable_toList_compact v _ h) (by decide)

theorem return_notMem_compact (v : Json) : '\r' ∉ v.compact.toList :=
  fun h => absurd (printable_toList_compact v _ h) (by decide)

/-- The first character of a text is none of white space. -/
theorem exists_head_compact (d : Nat) (v : Json) :
    ∃ c cs, render .compact d v = c :: cs ∧ Text.isWhiteSpace c = false := by
  cases v with
  | null => exact ⟨_, _, by rw [render]; rfl, by decide⟩
  | bool b => cases b <;> exact ⟨_, _, by rw [render]; rfl, by decide⟩
  | number n =>
    obtain ⟨c, cs, hc, hd⟩ := numberChars_head n
    refine ⟨c, cs, by rw [render, hc], ?_⟩
    obtain rfl | hd := hd
    · decide
    · have h := isDigit_bounds hd
      simp only [Text.isWhiteSpace]
      simp
      omega
  | string s => exact ⟨_, _, by rw [render, quote]; rfl, by decide⟩
  | array items =>
    cases items <;> exact ⟨_, _, by simp only [render, List.cons_append]; rfl, by decide⟩
  | object members =>
    cases members <;> exact ⟨_, _, by simp only [render, List.cons_append]; rfl, by decide⟩

/-! White space taken out. -/

/-- The text without its white space, but for what stands in string literals. -/
def squeeze : Zone → List Char → List Char
  | _, [] => []
  | .outside, c :: cs =>
    if Text.isWhiteSpace c then squeeze .outside cs else c :: squeeze (Zone.outside.next c) cs
  | z, c :: cs => c :: squeeze (z.next c) cs

def Squeezes (z z' : Zone) (text kept : List Char) : Prop :=
  ∀ rest, squeeze z (text ++ rest) = kept ++ squeeze z' rest

namespace Squeezes

variable {z z' z'' : Zone} {text text' kept kept' : List Char}

theorem nil (z : Zone) : Squeezes z z [] [] := fun _ => rfl

theorem append (h : Squeezes z z' text kept) (h' : Squeezes z' z'' text' kept') :
    Squeezes z z'' (text ++ text') (kept ++ kept') := by
  intro rest
  rw [List.append_assoc, h, h', List.append_assoc]

theorem cons {c : Char} (h : Squeezes z z' [c] [c]) (h' : Squeezes z' z'' text kept) :
    Squeezes z z'' (c :: text) (c :: kept) := h.append h'

theorem token {c : Char} (hc : Text.isWhiteSpace c = false) (hq : c ≠ '"') :
    Squeezes .outside .outside [c] [c] := by
  intro rest
  simp [squeeze, Zone.next, hc, hq]

theorem tokens (h : ∀ c ∈ text, Text.isWhiteSpace c = false ∧ c ≠ '"') :
    Squeezes .outside .outside text text := by
  induction text with
  | nil => exact nil _
  | cons c cs ih =>
    obtain ⟨hc, hcs⟩ := List.forall_mem_cons.mp h
    exact (token hc.1 hc.2).cons (ih hcs)

theorem blank (h : ∀ c ∈ text, Text.isWhiteSpace c = true) :
    Squeezes .outside .outside text [] := by
  induction text with
  | nil => exact nil _
  | cons c cs ih =>
    obtain ⟨hc, hcs⟩ := List.forall_mem_cons.mp h
    intro rest
    simp only [List.cons_append, squeeze, hc, if_true]
    exact ih hcs rest

/-- In a literal every character stays. -/
theorem step (hz : z ≠ .outside) (c : Char) : Squeezes z (z.next c) [c] [c] := by
  intro rest
  cases z with
  | outside => exact absurd rfl hz
  | literal => rfl
  | escaped => rfl

theorem opening : Squeezes .outside .literal ['"'] ['"'] := fun _ => rfl

theorem closing : Squeezes .literal .outside ['"'] ['"'] := fun _ => rfl

theorem plain (h : ∀ c ∈ text, c ≠ '"' ∧ c ≠ '\\') : Squeezes .literal .literal text text := by
  induction text with
  | nil => exact nil _
  | cons c cs ih =>
    obtain ⟨⟨hq, hs⟩, hcs⟩ := List.forall_mem_cons.mp h
    have hstep : Squeezes .literal .literal [c] [c] := by
      have := step (z := .literal) nofun c
      rwa [Zone.next, if_neg hq, if_neg hs] at this
    exact hstep.cons (ih hcs)

/-- The character behind a backslash does not end the literal. -/
theorem escape (c : Char) (h : ∀ d ∈ text, d ≠ '"' ∧ d ≠ '\\') :
    Squeezes .literal .literal ('\\' :: c :: text) ('\\' :: c :: text) :=
  (step (z := .literal) nofun '\\').cons ((step (z := .escaped) nofun c).cons (plain h))

end Squeezes

theorem plain_hexPair {n : Nat} (h : n < 32) :
    ∀ c ∈ '0' :: '0' :: hexPair n, c ≠ '"' ∧ c ≠ '\\' := by
  have hall : ∀ n < 32, ('0' :: '0' :: hexPair n).all (fun c => c ≠ '"' ∧ c ≠ '\\') = true := by
    decide
  exact List.all_iff_forall_prop.mp (hall n h)

theorem squeezes_escapeChar (c : Char) :
    Squeezes .literal .literal (escapeChar c) (escapeChar c) := by
  rw [escapeChar]
  repeat' split
  any_goals exact .escape _ (List.forall_mem_nil _)
  · rename_i hcontrol
    exact .escape 'u' (plain_hexPair hcontrol)
  · rename_i hq hs _ _ _ _ _ _
    exact .plain (List.forall_mem_singleton.mpr ⟨hq, hs⟩)

theorem squeezes_quote (s : String) : Squeezes .outside .outside (quote s) (quote s) := by
  have hcontent (cs : List Char) :
      Squeezes .literal .literal (cs.flatMap escapeChar) (cs.flatMap escapeChar) := by
    induction cs with
    | nil => exact .nil _
    | cons c cs ih => exact (squeezes_escapeChar c).append ih
  exact (Squeezes.opening.cons (hcontent s.toList)).append .closing

theorem token_of_numeric {c : Char} (h : Numeric c) : Text.isWhiteSpace c = false ∧ c ≠ '"' := by
  obtain hd | hmark := h
  · have hbounds := isDigit_bounds hd
    refine ⟨?_, fun he => by subst he; exact absurd hbounds (by decide)⟩
    simp only [Text.isWhiteSpace]
    simp
    omega
  · simp only [List.mem_cons, List.not_mem_nil, or_false] at hmark
    obtain rfl | rfl | rfl | rfl := hmark <;> decide

theorem squeezes_line (d : Nat) : Squeezes .outside .outside (Spacing.pretty.line d) [] := by
  refine .blank (List.forall_mem_cons.mpr ⟨by decide, fun c hc => ?_⟩)
  rw [List.eq_of_mem_replicate hc]
  decide

theorem squeezes_colon : Squeezes .outside .outside Spacing.pretty.colon Spacing.compact.colon :=
  fun _ => rfl

theorem squeezes_mark {c : Char} (h : c ∈ [',', '[', ']', '\x7b', '\x7d']) :
    Squeezes .outside .outside [c] [c] := by
  simp only [List.mem_cons, List.not_mem_nil, or_false] at h
  obtain rfl | rfl | rfl | rfl | rfl := h <;> exact .token (by decide) (by decide)

mutual

/-- The layouts put the same tokens in the same order. -/
theorem squeezes_render (d : Nat) : (v : Json) →
    Squeezes .outside .outside (render .pretty d v) (render .compact d v)
  | .null => by simp only [render]; exact .tokens (List.all_iff_forall_prop.mp (by decide))
  | .bool true => by simp only [render]; exact .tokens (List.all_iff_forall_prop.mp (by decide))
  | .bool false => by simp only [render]; exact .tokens (List.all_iff_forall_prop.mp (by decide))
  | .number n => by
    simp only [render]
    exact .tokens fun c hc => token_of_numeric (numeric_numberChars n c hc)
  | .string s => by simp only [render]; exact squeezes_quote s
  | .array [] => by simp only [render]; exact .tokens (List.all_iff_forall_prop.mp (by decide))
  | .array (v :: rest) => by
    have hfront := (squeezes_mark (c := '[') (by simp)).cons (squeezes_line (d + 1))
    have hitems := (hfront.append (squeezes_render (d + 1) v)).append (squeezes_renderItems d rest)
    simp only [render]
    exact (hitems.append (squeezes_line d)).append (squeezes_mark (by simp))
  | .object [] => by simp only [render]; exact .tokens (List.all_iff_forall_prop.mp (by decide))
  | .object ((k, v) :: rest) => by
    have hfront := (squeezes_mark (c := '\x7b') (by simp)).cons (squeezes_line (d + 1))
    have hname := (hfront.append (squeezes_quote k)).append squeezes_colon
    have hmembers :=
      (hname.append (squeezes_render (d + 1) v)).append (squeezes_renderMembers d rest)
    simp only [render]
    exact (hmembers.append (squeezes_line d)).append (squeezes_mark (by simp))

theorem squeezes_renderItems (d : Nat) : (items : List Json) →
    Squeezes .outside .outside (renderItems .pretty d items) (renderItems .compact d items)
  | [] => by simp only [renderItems]; exact .nil _
  | v :: rest => by
    have hfront := (squeezes_mark (c := ',') (by simp)).cons (squeezes_line (d + 1))
    simp only [renderItems]
    exact (hfront.append (squeezes_render (d + 1) v)).append (squeezes_renderItems d rest)

theorem squeezes_renderMembers (d : Nat) : (members : List (String × Json)) →
    Squeezes .outside .outside (renderMembers .pretty d members)
      (renderMembers .compact d members)
  | [] => by simp only [renderMembers]; exact .nil _
  | (k, v) :: rest => by
    have hfront := (squeezes_mark (c := ',') (by simp)).cons (squeezes_line (d + 1))
    have hname := (hfront.append (squeezes_quote k)).append squeezes_colon
    simp only [renderMembers]
    exact (hname.append (squeezes_render (d + 1) v)).append (squeezes_renderMembers d rest)

end

/-- Compact text is the pretty text without the white space between tokens. -/
theorem squeeze_pretty (v : Json) : squeeze .outside v.pretty.toList = v.compact.toList := by
  have h := squeezes_render 0 v []
  rw [List.append_nil] at h
  rw [pretty, compact, String.toList_ofList, String.toList_ofList, h]
  exact List.append_nil _

end Json

end SchemaByExample
