import SchemaByExample.Filter.Token
import SchemaByExample.Proofs.Json.Layout
import SchemaByExample.Proofs.Json.Path

/-! Filters that are written for paths, cut into tokens. A name stands in its brackets as it
stands in a document, and is cut into the token of a string whose text it is. -/
namespace SchemaByExample.Filter

open Json

def keyChars : Json.Step → List Char
  | .member k => Json.quote k
  | .item i => Nat.toDigits 10 i

def bracketChars (s : Json.Step) : List Char := '[' :: (keyChars s ++ [']'])

def ofPath (path : List Json.Step) : String := String.ofList ('.' :: path.flatMap bracketChars)

def textPieces {α : Type} (text : String → α) : List Char → List α
  | [] => []
  | cs => [text (String.ofList cs)]

namespace Token

def ofKey : Json.Step → Token
  | .member k => .string (String.ofList (Json.quote k)) (textPieces .text k.toList)
  | .item i => .number (String.ofList (Nat.toDigits 10 i))

def ofBracket (s : Json.Step) : Token :=
  .block (String.ofList (bracketChars s)) [ofKey s, .symbol "]"]

/-- What is cut off the front is the text between. -/
theorem between_append (front rest : List Char) :
    between (front ++ rest) rest = String.ofList front := by
  rw [between, List.length_append, Nat.add_sub_cancel, List.take_left]

theorem skipBlank_cons {c : Char} (hblank : Text.isWhiteSpace c = false) (hmark : c ≠ '#')
    (rest : List Char) : skipBlank (c :: rest) = c :: rest := by
  have hdrop : (c :: rest).dropWhile Text.isWhiteSpace = c :: rest := by
    rw [List.dropWhile_cons_of_neg (by simp [hblank])]
  rw [skipBlank, List.length_cons, skip, hdrop]
  split
  · rename_i heq
    exact absurd (List.cons.inj heq).1 hmark
  · rfl

/-! Strings. -/

theorem addChar_textPieces (c : Char) (cs : List Char) :
    addChar c (textPieces .text cs) = textPieces .text (c :: cs) := by
  have hone : c.toString = String.ofList [c] := String.singleton_eq_ofList
  cases cs with
  | nil => exact congrArg (fun s => [Piece.text s]) hone
  | cons d cs =>
    have hfront : c.toString ++ String.ofList (d :: cs) = String.ofList (c :: d :: cs) := by
      rw [hone, ← String.ofList_append, List.singleton_append]
    exact congrArg (fun s => [Piece.text s]) hfront

theorem hexDigit?_digitChar : ∀ d < 16, Text.hexDigit? (Nat.digitChar d) = some d := by decide

/-- The four digits that are printed for a control character are its code. -/
theorem unicodeEscape_control {c : Char} (h : c.toNat < 32) (rest : List Char) :
    unicodeEscape ('0' :: '0' :: (hexPair c.toNat ++ rest)) = ⟨some c, [], rest⟩ := by
  have hzero : Text.hexDigit? '0' = some 0 := by decide
  have hhigh := hexDigit?_digitChar (c.toNat / 16) (by omega)
  have hlow := hexDigit?_digitChar (c.toNat % 16) (by omega)
  have hcode : 16 * (16 * (16 * (16 * 0 + 0) + 0) + c.toNat / 16) + c.toNat % 16 = c.toNat := by
    omega
  have hchar : Utf8.char? c.toNat = some c := Utf8.char?_toNat c
  simp only [unicodeEscape, hexPair, List.cons_append, List.nil_append, fourDigits, hzero, hhigh,
    hlow, hcode, hchar]

/-- A character is cut off as it is printed in a document. -/
theorem cutString_escapeChar (fuel : Nat) (c : Char) (rest : List Char) :
    cutString (fuel + 1) (Json.escapeChar c ++ rest) = (cutString fuel rest).map (addChar c) := by
  rw [Json.escapeChar]
  iterate 7
    split
    · subst c
      rfl
  split
  · rename_i hcontrol
    have hcode := unicodeEscape_control hcontrol rest
    simp only [List.cons_append, cutString, hcode]
    rfl
  · rename_i hquote hslash _ _ _ _ _ _
    simp only [List.singleton_append, cutString, if_neg hquote, if_neg hslash]

theorem cutString_quoted (cs rest : List Char) {fuel : Nat} (h : cs.length < fuel) :
    cutString fuel (cs.flatMap Json.escapeChar ++ '"' :: rest) =
      ⟨textPieces .text cs, [], rest⟩ := by
  induction cs generalizing fuel with
  | nil =>
    obtain ⟨fuel, rfl⟩ := Nat.exists_eq_add_one_of_ne_zero (Nat.ne_zero_of_lt h)
    rfl
  | cons c cs ih =>
    obtain ⟨fuel, rfl⟩ := Nat.exists_eq_add_one_of_ne_zero (Nat.ne_zero_of_lt h)
    rw [List.flatMap_cons, List.append_assoc, cutString_escapeChar,
      ih (Nat.lt_of_succ_lt_succ h), Cut.map, addChar_textPieces]

theorem cut?_quote (k : String) (rest : List Char) {fuel : Nat} (h : k.toList.length + 1 < fuel) :
    cut? fuel (Json.quote k ++ rest) =
      some ⟨.string (String.ofList (Json.quote k)) (textPieces .text k.toList), [], rest⟩ := by
  obtain ⟨fuel, rfl⟩ := Nat.exists_eq_add_one_of_ne_zero (Nat.ne_zero_of_lt h)
  have htext : Json.quote k ++ rest =
      '"' :: (k.toList.flatMap Json.escapeChar ++ '"' :: rest) := by
    rw [Json.quote, List.cons_append, List.cons_append, List.append_assoc, List.singleton_append]
  have hcut (tail : List Char) : cut? (fuel + 1) ('"' :: tail) =
      some ((cutString fuel tail).map fun ps =>
        .string (between ('"' :: tail) (cutString fuel tail).left) ps) := rfl
  have hbetween := between_append (Json.quote k) rest
  rw [htext] at hbetween ⊢
  rw [hcut, cutString_quoted _ _ (Nat.lt_of_succ_lt_succ h), hbetween]
  rfl

/-! Numbers. -/

theorem not_isNameStart_of_isDigit {c : Char} (h : c.isDigit = true) : isNameStart c = false := by
  have hlt : c.val.toNat < 65 := Nat.lt_trans (Literal.isDigit_bounds h).2 (by decide)
  have hupper : c.isUpper = false := decide_eq_false fun hu =>
    Nat.not_le.mpr hlt (UInt32.le_iff_toNat_le.mp hu.1)
  have hlower : c.isLower = false := Bool.and_eq_false_iff.mpr (.inl (decide_eq_false fun hl =>
    Nat.not_le.mpr (Nat.lt_trans hlt (by decide)) (UInt32.le_iff_toNat_le.mp hl)))
  have hletter : c.isAlpha = false := Bool.or_eq_false_iff.mpr ⟨hupper, hlower⟩
  have hmark : c ≠ '_' := by
    rintro rfl
    cases h
  rw [isNameStart, hletter, Bool.false_or, beq_eq_false_iff_ne]
  exact hmark

theorem cut?_digits (i fuel : Nat) (rest : List Char) :
    cut? (fuel + 1) (Nat.toDigits 10 i ++ ']' :: rest) =
      some ⟨.number (String.ofList (Nat.toDigits 10 i)), [], ']' :: rest⟩ := by
  obtain ⟨c, cs, hc, hdigit⟩ := Literal.toDigits_head i
  have hcs : ∀ d ∈ cs, d.isDigit = true := fun d hd =>
    Literal.isDigit_of_mem (hc ▸ List.mem_cons_of_mem c hd)
  have hdrop : (cs ++ ']' :: rest).dropWhile Char.isDigit = ']' :: rest := by
    rw [List.dropWhile_append_of_pos hcs]
    rfl
  have htail : numberTail (cs ++ ']' :: rest) = ⟨(), [], ']' :: rest⟩ := by
    rw [numberTail, hdrop]
    rfl
  have hbetween := between_append (Nat.toDigits 10 i) (']' :: rest)
  rw [hc, List.cons_append] at hbetween ⊢
  have hne {d : Char} (hd : d.isDigit = false) : c ≠ d := by
    rintro rfl
    rw [hdigit] at hd
    cases hd
  simp only [cut?, not_isNameStart_of_isDigit hdigit, Bool.false_eq_true, if_false,
    if_neg (hne (d := '$') (by decide)), if_neg (hne (d := '@') (by decide)), hdigit, if_true,
    htail, Cut.map, hbetween]

/-! Steps. -/

theorem length_le_escaped (cs : List Char) : cs.length ≤ (cs.flatMap Json.escapeChar).length := by
  induction cs with
  | nil => exact Nat.zero_le _
  | cons c cs ih =>
    have hone : 0 < (Json.escapeChar c).length := by
      rw [Json.escapeChar]
      repeat' split
      all_goals exact Nat.zero_lt_succ _
    rw [List.flatMap_cons, List.length_append, List.length_cons]
    omega

theorem cut?_key (s : Json.Step) (rest : List Char) {fuel : Nat}
    (h : (keyChars s).length ≤ fuel) :
    cut? fuel (keyChars s ++ ']' :: rest) = some ⟨ofKey s, [], ']' :: rest⟩ := by
  cases s with
  | member k =>
    have hle := length_le_escaped k.toList
    rw [keyChars, Json.quote, List.length_append, List.length_cons, List.length_singleton] at h
    exact cut?_quote k _ (by omega)
  | item i =>
    obtain ⟨c, cs, hc, -⟩ := Literal.toDigits_head i
    rw [keyChars, hc, List.length_cons] at h
    obtain ⟨fuel, rfl⟩ := Nat.exists_eq_add_one_of_ne_zero (Nat.ne_zero_of_lt h)
    exact cut?_digits i fuel rest

theorem skipBlank_key (s : Json.Step) (rest : List Char) :
    skipBlank (keyChars s ++ rest) = keyChars s ++ rest := by
  cases s with
  | member k => exact skipBlank_cons (by decide) (by decide) _
  | item i =>
    obtain ⟨c, cs, hc, hdigit⟩ := Literal.toDigits_head i
    have hmark : c ≠ '#' := by
      rintro rfl
      cases hdigit
    rw [keyChars, hc]
    exact skipBlank_cons (token_of_numeric (.inl hdigit)).1 hmark _

/-- A closing bracket begins no token. -/
theorem cutAll_closing (fuel : Nat) (rest : List Char) :
    cutAll fuel (']' :: rest) = ⟨[], [], ']' :: rest⟩ := by
  cases fuel with
  | zero => rfl
  | succ fuel =>
    have hnone : cut? fuel (']' :: rest) = none := by cases fuel <;> rfl
    rw [cutAll, skipBlank_cons (by decide) (by decide), hnone]

theorem cut?_bracket (s : Json.Step) (rest : List Char) {fuel : Nat}
    (h : (bracketChars s).length < fuel) :
    cut? fuel (bracketChars s ++ rest) = some ⟨ofBracket s, [], rest⟩ := by
  have hlength : (bracketChars s).length = (keyChars s).length + 2 := by
    rw [bracketChars, List.length_cons, List.length_append, List.length_singleton]
  -- the part, what is inside it and the key there are cut by calls within one another
  obtain ⟨fuel, rfl⟩ : ∃ n, fuel = n + 3 := Nat.exists_eq_add_of_le' (by omega)
  have htext : bracketChars s ++ rest = '[' :: (keyChars s ++ ']' :: rest) := by
    rw [bracketChars, List.cons_append, List.append_assoc, List.singleton_append]
  have hcut (tail : List Char) : cut? (fuel + 3) ('[' :: tail) =
      some ((cutBlock (fuel + 2) '[' tail).map fun ts =>
        .block (between ('[' :: tail) (cutBlock (fuel + 2) '[' tail).left) ts) := rfl
  have hinner : cutAll (fuel + 1) (keyChars s ++ ']' :: rest) =
      ⟨[ofKey s], [], ']' :: rest⟩ := by
    rw [cutAll, skipBlank_key, cut?_key s rest (by omega)]
    simp only [cutAll_closing, List.append_nil]
  have hblock : cutBlock (fuel + 2) '[' (keyChars s ++ ']' :: rest) =
      ⟨[ofKey s, .symbol "]"], [], rest⟩ := by
    rw [cutBlock, hinner]
    simp only [skipBlank_cons (c := ']') (by decide) (by decide)]
    rfl
  have hbetween := between_append (bracketChars s) rest
  rw [htext] at hbetween ⊢
  rw [hcut, hblock, hbetween]
  rfl

theorem cutAll_brackets (path : List Json.Step) {fuel : Nat}
    (h : (path.flatMap bracketChars).length + 2 ≤ fuel) :
    cutAll fuel (path.flatMap bracketChars) = ⟨path.map ofBracket, [], []⟩ := by
  induction path generalizing fuel with
  | nil =>
    obtain ⟨fuel, rfl⟩ := Nat.exists_eq_add_of_le' h
    rfl
  | cons s path ih =>
    have hpos : 0 < (bracketChars s).length := Nat.zero_lt_succ _
    have hskip (tail : List Char) : skipBlank (bracketChars s ++ tail) = bracketChars s ++ tail :=
      skipBlank_cons (by decide) (by decide) _
    rw [List.flatMap_cons, List.length_append] at h
    obtain ⟨fuel, rfl⟩ : ∃ n, fuel = n + 1 := Nat.exists_eq_add_of_le' (by omega)
    have hmore := ih (show (path.flatMap bracketChars).length + 2 ≤ fuel by omega)
    rw [List.flatMap_cons, cutAll, hskip, cut?_bracket s _ (by omega)]
    simp only [hmore, List.map_cons, List.append_nil]

/-- The tokens of the filter for a path: its dot, and a bracketed part for each step. -/
theorem ofText_ofPath (path : List Json.Step) :
    ofText (Filter.ofPath path) = .ok (.symbol "." :: path.map ofBracket) := by
  have htail : dotTail (path.flatMap bracketChars) = path.flatMap bracketChars := by
    cases path <;> rfl
  have hcut (fuel : Nat) : cut? (fuel + 1) ('.' :: path.flatMap bracketChars) =
      some ⟨.symbol ".", [], path.flatMap bracketChars⟩ := by
    have hbetween := between_append ['.'] (path.flatMap bracketChars)
    rw [List.singleton_append] at hbetween
    have hdot : cut? (fuel + 1) ('.' :: path.flatMap bracketChars) =
        some ⟨.symbol (between ('.' :: path.flatMap bracketChars)
          (dotTail (path.flatMap bracketChars))), [], dotTail (path.flatMap bracketChars)⟩ := rfl
    rw [hdot, htail, hbetween]
  have hall : cutAll (4 * ('.' :: path.flatMap bracketChars).length + 4)
      ('.' :: path.flatMap bracketChars) = ⟨.symbol "." :: path.map ofBracket, [], []⟩ := by
    have hmore : cutAll (4 * (path.flatMap bracketChars).length + 4 + 3)
        (path.flatMap bracketChars) = ⟨path.map ofBracket, [], []⟩ :=
      cutAll_brackets path (by omega)
    rw [cutAll, skipBlank_cons (by decide) (by decide), List.length_cons, Nat.mul_add_one, hcut]
    simp only [hmore, List.append_nil]
  rw [ofText, Filter.ofPath, String.toList_ofList, hall]
  rfl

end Token

end SchemaByExample.Filter
