import SchemaByExample.Proofs.Command.Listing

/-! Texts of one document to a line, part by part. What is read from two parts, the first of
which ends its last line, is read from each by itself, and only the numbers of lines go on
from one to the other. -/
namespace SchemaByExample

namespace Text

/-- The lines of a text. A line feed ends a line, together with a carriage return before it;
the last line may lack its end. -/
inductive Lines : List Char → List (List Char) → Prop
  | nil : Lines [] []
  | last {line : List Char} : line ≠ [] → '\n' ∉ line → Lines line [line]
  | lineFeed {line text : List Char} {lines : List (List Char)} : '\n' ∉ line →
      line.getLast? ≠ some '\r' → Lines text lines → Lines (line ++ '\n' :: text) (line :: lines)
  | returned {line text : List Char} {lines : List (List Char)} : '\n' ∉ line →
      Lines text lines → Lines (line ++ '\r' :: '\n' :: text) (line :: lines)

theorem dropReturn_of_getLast? {line : List Char} (h : line.getLast? ≠ some '\r') :
    dropReturn line = line := by
  rw [dropReturn]
  split
  · rename_i rest hrest
    rw [List.getLast?_eq_head?_reverse, hrest] at h
    exact absurd rfl h
  · rfl

/-- Lines are numbered one after the other. -/
theorem numberLines_of_lines {text : List Char} {lines : List (List Char)} (h : Lines text lines)
    (n : Nat) : numberLines n (split '\n' text) = (lines.zipIdx n).map Prod.swap := by
  induction h generalizing n with
  | nil => rfl
  | last hne hline =>
    rw [numberLines_last hline, if_neg (by simpa using hne)]
    rfl
  | lineFeed hline hreturn _ ih =>
    rw [numberLines_append hline, dropReturn_of_getLast? hreturn, ih]
    rfl
  | @returned line text lines hline _ ih =>
    have hfree : '\n' ∉ line ++ ['\r'] := by simpa using hline
    have hcut : line ++ '\r' :: '\n' :: text = (line ++ ['\r']) ++ '\n' :: text := by simp
    rw [hcut, numberLines_append hfree, dropReturn_return, ih]
    rfl

/-- A piece with a line feed behind it is a line. -/
theorem Lines.cons {line text : List Char} {lines : List (List Char)} (hline : '\n' ∉ line)
    (h : Lines text lines) : ∃ first, Lines (line ++ '\n' :: text) (first :: lines) := by
  by_cases hreturn : line.getLast? = some '\r'
  · obtain ⟨front, rfl⟩ := List.getLast?_eq_some_iff.mp hreturn
    have hfront : '\n' ∉ front := fun hmem => hline (List.mem_append_left _ hmem)
    rw [List.append_assoc]
    exact ⟨front, .returned hfront h⟩
  · exact ⟨line, .lineFeed hline hreturn h⟩

theorem exists_lines (text : List Char) : ∃ lines, Lines text lines := by
  obtain ⟨p, ps, -, hfree, rfl⟩ := exists_split '\n' text
  induction ps generalizing p with
  | nil =>
    rw [List.flatMap_nil, List.append_nil]
    by_cases hp : p = []
    · exact ⟨[], hp ▸ .nil⟩
    · exact ⟨[p], .last hp (hfree p List.mem_cons_self)⟩
  | cons q ps ih =>
    obtain ⟨hp, hps⟩ := List.forall_mem_cons.mp hfree
    obtain ⟨lines, hlines⟩ := ih q hps
    obtain ⟨first, hfirst⟩ := Lines.cons hp hlines
    exact ⟨first :: lines, hfirst⟩

/-- Where a line ends, numbering goes on with what follows. -/
theorem numberLines_ended (n : Nat) (front rest : List Char) :
    numberLines n (split '\n' (front ++ '\n' :: rest)) =
      numberLines n (split '\n' (front ++ ['\n'])) ++
        numberLines (n + (front ++ ['\n']).count '\n') (split '\n' rest) := by
  have hcount {p : List Char} (hp : '\n' ∉ p) (tail : List Char) :
      (p ++ '\n' :: tail).count '\n' = tail.count '\n' + 1 := by
    rw [List.count_append, List.count_eq_zero_of_not_mem hp, List.count_cons_self, Nat.zero_add]
  obtain ⟨p, ps, -, hfree, rfl⟩ := exists_split '\n' front
  induction ps generalizing p n with
  | nil =>
    have hp : '\n' ∉ p := hfree p List.mem_cons_self
    rw [List.flatMap_nil, List.append_nil, numberLines_append hp, numberLines_append hp,
      hcount hp]
    rfl
  | cons q ps ih =>
    obtain ⟨hp, hps⟩ := List.forall_mem_cons.mp hfree
    have hrest := ih (n + 1) q hps
    simp only [List.flatMap_cons, List.append_assoc, List.cons_append] at hrest ⊢
    rw [numberLines_append hp, numberLines_append hp, hrest, hcount hp, List.cons_append,
      Nat.add_right_comm, Nat.add_assoc]

theorem numberLines_add (n k : Nat) (pieces : List (List Char)) :
    numberLines (n + k) pieces = (numberLines n pieces).map fun x => (x.1 + k, x.2) := by
  induction pieces generalizing n with
  | nil => rfl
  | cons p ps ih =>
    cases ps with
    | nil =>
      rw [numberLines, numberLines]
      split <;> rfl
    | cons q ps =>
      have hrest := ih (n + 1)
      rw [Nat.add_right_comm] at hrest
      exact congrArg ((n + k, dropReturn p) :: ·) hrest

end Text

namespace Command

/-! Numbered lines. -/

/-- The error, some lines further on. -/
def LoadError.after (k : Nat) : LoadError → LoadError
  | .text label (some n) e => .text label (some (n + k)) e
  | e => e

theorem LoadError.after_zero (err : LoadError) : err.after 0 = err := by
  cases err with
  | text label line e => cases line <;> rfl
  | _ => rfl

def Passes (line : List Char) : Prop :=
  line.all Text.isWhiteSpace = true ∨ ∃ v, Json.ofText (String.ofList line) = .ok v

def Fails (line : List Char) (e : ReadError) : Prop :=
  line.all Text.isWhiteSpace = false ∧ Json.ofText (String.ofList line) = .error e

theorem Fails.not_passes {line : List Char} {e : ReadError} (h : Fails line e) : ¬Passes line := by
  rintro (hblank | ⟨v, hv⟩)
  · rw [h.1] at hblank
    cases hblank
  · rw [h.2] at hv
    cases hv

section Lines

variable (label : String)

theorem parseLines_append (xs ys : List (Nat × List Char)) :
    parseLines label (xs ++ ys) = do return (← parseLines label xs) ++ (← parseLines label ys) := by
  simp only [parseLines_eq_outcome, List.filter_append, List.map_append, outcome_append]

theorem parseLines_add (k : Nat) (xs : List (Nat × List Char)) :
    parseLines label (xs.map fun x => (x.1 + k, x.2)) =
      (parseLines label xs).mapError (LoadError.after k) := by
  induction xs with
  | nil => rfl
  | cons x xs ih =>
    obtain ⟨n, line⟩ := x
    simp only [List.map_cons, parseLines, ih]
    split
    · rfl
    · cases Json.ofText (String.ofList line) with
      | error e => rfl
      | ok v => cases parseLines label xs <;> rfl

/-- The first line that fails is the one that is reported. -/
theorem parseLines_eq_error_iff {lines : List (List Char)} {n : Nat} {err : LoadError} :
    parseLines label ((lines.zipIdx n).map Prod.swap) = .error err ↔
      ∃ before line after e, lines = before ++ line :: after ∧ (∀ l ∈ before, Passes l) ∧
        Fails line e ∧ err = .text label (some (n + before.length)) e := by
  induction lines generalizing n with
  | nil => simp [parseLines]
  | cons line lines ih =>
    -- a line that passes leaves the report to the others, and is one of those before
    have hpass (h : Passes line) : (∃ before l after e, line :: lines = before ++ l :: after ∧
        (∀ l ∈ before, Passes l) ∧ Fails l e ∧ err = .text label (some (n + before.length)) e) ↔
        parseLines label ((lines.zipIdx (n + 1)).map Prod.swap) = .error err := by
      rw [ih]
      constructor
      · rintro ⟨before, l, after, e, hlines, hbefore, hfails, herr⟩
        cases before with
        | nil =>
          obtain ⟨rfl, -⟩ := List.cons.inj hlines
          exact absurd h hfails.not_passes
        | cons first before =>
          obtain ⟨rfl, rfl⟩ := List.cons.inj hlines
          refine ⟨before, l, after, e, rfl, (List.forall_mem_cons.mp hbefore).2, hfails, ?_⟩
          rw [herr, List.length_cons]
          congr 2
          omega
      · rintro ⟨before, l, after, e, rfl, hbefore, hfails, herr⟩
        refine ⟨line :: before, l, after, e, rfl, List.forall_mem_cons.mpr ⟨h, hbefore⟩, hfails, ?_⟩
        rw [herr, List.length_cons]
        congr 2
        omega
    rw [List.zipIdx_cons, List.map_cons, Prod.swap_prod_mk, parseLines]
    split
    · rename_i hblank
      rw [hpass (.inl hblank)]
    · rename_i hblank
      cases hread : Json.ofText (String.ofList line) with
      | ok v =>
        rw [hpass (.inr ⟨v, hread⟩)]
        cases parseLines label ((lines.zipIdx (n + 1)).map Prod.swap) with
        | error e => rfl
        | ok vs => constructor <;> (intro h; cases h)
      | error e =>
        have hfails : Fails line e := ⟨by simpa using hblank, hread⟩
        constructor
        · rintro ⟨⟩
          exact ⟨[], line, lines, e, rfl, List.forall_mem_nil _, hfails, rfl⟩
        · rintro ⟨before, l, after, e', hlines, hbefore, hfails', rfl⟩
          cases before with
          | nil =>
            obtain ⟨rfl, -⟩ := List.cons.inj hlines
            obtain rfl := Except.error.inj (hread.symm.trans hfails'.2)
            rfl
          | cons first before =>
            obtain ⟨rfl, -⟩ := List.cons.inj hlines
            exact absurd (hbefore line List.mem_cons_self) hfails.not_passes

/-- Documents one to a line, from a text that ends its last line and one behind it. -/
theorem parseDocuments_ended (front rest : String) :
    parseDocuments true label (front ++ "\n" ++ rest) = do
      let vs ← parseDocuments true label (front ++ "\n")
      let ws ← (parseDocuments true label rest).mapError
        (LoadError.after ((front ++ "\n").toList.count '\n'))
      return vs ++ ws := by
  have hfront : (front ++ "\n").toList = front.toList ++ ['\n'] := String.toList_append
  have htext : (front ++ "\n" ++ rest).toList = front.toList ++ '\n' :: rest.toList := by
    rw [String.toList_append, hfront, List.append_assoc]
    rfl
  simp only [parseDocuments, if_true, Text.lines, htext, hfront]
  rw [Text.numberLines_ended, Text.numberLines_add, parseLines_append, parseLines_add]

end Lines

def Ended (text : String) : Prop := text = "" ∨ ∃ front, text = front ++ "\n"

theorem parseDocuments_append (label : String) {front : String} (h : Ended front)
    (rest : String) :
    parseDocuments true label (front ++ rest) = do
      let vs ← parseDocuments true label front
      let ws ← (parseDocuments true label rest).mapError
        (LoadError.after (front.toList.count '\n'))
      return vs ++ ws := by
  obtain rfl | ⟨front, rfl⟩ := h
  · have hempty : parseDocuments true label "" = .ok [] := rfl
    have hnone : LoadError.after 0 = id := funext LoadError.after_zero
    rw [String.empty_append, hempty]
    change _ = (parseDocuments true label rest).mapError (LoadError.after 0) >>= fun ws => .ok ws
    rw [hnone]
    cases parseDocuments true label rest <;> rfl
  · exact parseDocuments_ended label front rest

/-- The first of the lines that is neither blank nor a document is reported, with its number. -/
theorem parseDocuments_eq_error_iff (label : String) {text : String} {lines : List (List Char)}
    (h : Text.Lines text.toList lines) {err : LoadError} :
    parseDocuments true label text = .error err ↔
      ∃ before line after e, lines = before ++ line :: after ∧ (∀ l ∈ before, Passes l) ∧
        Fails line e ∧ err = .text label (some (1 + before.length)) e := by
  rw [parseDocuments, if_pos rfl, Text.lines, Text.numberLines_of_lines h,
    parseLines_eq_error_iff]

/-- But for the number of the line, the message stays as it is. -/
theorem message_later (label : String) (n k : Nat) (e : ReadError) :
    ∃ words, (LoadError.text label (some n) e).message =
        "invalid input: " ++ ("line " ++ toString n ++ words) ∧
      (LoadError.text label (some (n + k)) e).message =
        "invalid input: " ++ ("line " ++ toString (n + k) ++ words) := by
  have hmessage (m : Nat) : (LoadError.text label (some m) e).message =
      "invalid input: " ++ ("line " ++ toString m ++ ": ") ++ label ++ ": " ++ e.message := rfl
  refine ⟨": " ++ (label ++ (": " ++ e.message)), ?_, ?_⟩ <;>
  · rw [hmessage]
    simp only [String.append_assoc]

/-- What is read from two parts, the first of which ends its last line, is read from each by
itself. If both can be read, their documents stand one after the other. An error in the first is
the error of the whole; an error in the second is, too, but that its line counts from the start of
the first. In any text the line of an error is the first that is neither blank nor a document. -/
theorem parseDocuments_by_lines (label : String) :
    (∀ front rest, Ended front →
      (∀ documents, parseDocuments true label (front ++ rest) = .ok documents ↔
        ∃ vs ws, parseDocuments true label front = .ok vs ∧
          parseDocuments true label rest = .ok ws ∧ documents = vs ++ ws) ∧
      (∀ err, parseDocuments true label front = .error err →
        parseDocuments true label (front ++ rest) = .error err) ∧
      (∀ vs err, parseDocuments true label front = .ok vs →
        parseDocuments true label rest = .error err →
          ∃ n e, err = .text label (some n) e ∧
            parseDocuments true label (front ++ rest) =
              .error (.text label (some (n + front.toList.count '\n')) e) ∧
            ∃ words, err.message = "invalid input: " ++ ("line " ++ toString n ++ words) ∧
              (LoadError.text label (some (n + front.toList.count '\n')) e).message =
                "invalid input: " ++
                  ("line " ++ toString (n + front.toList.count '\n') ++ words))) ∧
    (∀ text, (∃ lines, Text.Lines text.toList lines) ∧
      ∀ lines, Text.Lines text.toList lines →
        ∀ err, parseDocuments true label text = .error err ↔
          ∃ before line after e, lines = before ++ line :: after ∧ (∀ l ∈ before, Passes l) ∧
            Fails line e ∧ err = .text label (some (1 + before.length)) e) := by
  refine ⟨fun front rest h => ?_, fun text => ⟨Text.exists_lines _, fun lines hlines err =>
    parseDocuments_eq_error_iff label hlines⟩⟩
  rw [parseDocuments_append label h]
  refine ⟨fun documents => ?_, fun err herr => ?_, fun vs err hvs herr => ?_⟩
  · cases parseDocuments true label front with
    | error e =>
      constructor
      · intro h
        cases h
      · rintro ⟨_, _, ⟨⟩, -⟩
    | ok vs =>
      cases parseDocuments true label rest with
      | error e =>
        constructor
        · intro h
          cases h
        · rintro ⟨_, _, -, ⟨⟩, -⟩
      | ok ws =>
        constructor
        · rintro ⟨⟩
          exact ⟨vs, ws, rfl, rfl, rfl⟩
        · rintro ⟨_, _, ⟨⟩, ⟨⟩, rfl⟩
          rfl
  · rw [herr]
    rfl
  · obtain ⟨lines, hlines⟩ := Text.exists_lines rest.toList
    obtain ⟨before, line, after, e, -, -, -, rfl⟩ :=
      (parseDocuments_eq_error_iff label hlines).mp herr
    refine ⟨_, e, rfl, ?_, message_later label _ _ e⟩
    rw [hvs, herr]
    rfl

/-- Two lines, of which the second is blank, and a text whose second line is no document. -/
theorem parseDocuments_by_lines_feed :
    Ended "\x7b\x7d\r\n \u2003\n" ∧
      parseDocuments true "in" "\x7b\x7d\r\n \u2003\n" = .ok [.object []] ∧
      ∃ e, parseDocuments true "in" "[]\n\x7bx" = .error (.text "in" (some 2) e) ∧
        parseDocuments true "in" ("\x7b\x7d\r\n \u2003\n" ++ "[]\n\x7bx") =
          .error (.text "in" (some 4) e) := by
  have hended : Ended "\x7b\x7d\r\n \u2003\n" := .inr ⟨"\x7b\x7d\r\n \u2003", rfl⟩
  have hfront : parseDocuments true "in" "\x7b\x7d\r\n \u2003\n" = .ok [.object []] := rfl
  have hlines : Text.lines "[]\n\x7bx".toList = [(1, ['[', ']']), (2, ['\x7b', 'x'])] := rfl
  have hgood : Json.ofText (String.ofList ['[', ']']) = .ok (.array []) := rfl
  have hbad : ∃ e, Json.ofText (String.ofList ['\x7b', 'x']) = .error e := ⟨_, rfl⟩
  obtain ⟨e, hbad⟩ := hbad
  have he : parseDocuments true "in" "[]\n\x7bx" = .error (.text "in" (some 2) e) := by
    rw [parseDocuments, if_pos rfl, hlines, parseLines, if_neg (by decide), hgood, parseLines,
      if_neg (by decide), hbad]
    rfl
  obtain ⟨-, -, hlater⟩ := (parseDocuments_by_lines "in").1 _ "[]\n\x7bx" hended
  obtain ⟨n, e', herr, hwhole, -⟩ := hlater _ _ hfront he
  cases herr
  exact ⟨hended, hfront, e, he, hwhole⟩

end Command

end SchemaByExample
