import SchemaByExample.Proofs.Json.Encoding

/-! The documents that are accepted: one text of the grammar with blanks around it, encoded,
that nests no more containers than allowed. -/
namespace SchemaByExample

namespace Members

variable {α : Type}

/-- A name that repeats has its last value. -/
theorem find?_ofPairs (key : String) (pairs : List (String × α)) :
    find? key (ofPairs pairs) = find? key pairs.reverse := by
  rw [ofPairs, find?_insertAll]
  exact Option.or_none

theorem keys_insertAll {start : Members α} (h : (keys start).eraseDups = keys start)
    (pairs : List (String × α)) :
    keys (insertAll start pairs) = (keys start ++ keys pairs).eraseDups := by
  induction pairs generalizing start with
  | nil => simpa [keys, insertAll] using h.symm
  | cons p rest ih =>
    have hstep : insertAll start (p :: rest) = insertAll (insert p.1 p.2 start) rest := rfl
    have hkeys := keys_insert p.1 p.2 start
    rw [hstep, keys_cons]
    by_cases hp : p.1 ∈ keys start
    · rw [if_pos hp] at hkeys
      rw [ih (by rw [hkeys, h]), hkeys, List.eraseDups_append, List.eraseDups_append]
      simp [List.removeAll, hp]
    · rw [if_neg hp] at hkeys
      have hnew : (keys start ++ [p.1]).eraseDups = keys start ++ [p.1] := by
        rw [List.eraseDups_append, h]
        simp [List.removeAll, hp, List.eraseDups_cons]
      rw [ih (by rw [hkeys, hnew]), hkeys, List.append_assoc, List.singleton_append]

/-- The names stand in the order in which they come first. -/
theorem keys_ofPairs (pairs : List (String × α)) :
    keys (ofPairs pairs) = (keys pairs).eraseDups := keys_insertAll rfl pairs

end Members

namespace Json

open Read Literal Number

/-- The bytes are a text that denotes the value, with blanks around it, and nest no more
containers than allowed. -/
def Document (bytes : Bytes) (v : Json) : Prop :=
  nesting bytes ≤ maxDepth ∧ ∃ front text back, Space front ∧ Denotes text v ∧ Space back ∧
    bytes = Utf8.encode (front ++ (text ++ back))

theorem endsValue_of_blanks {bl : Bytes} (h : Blanks bl) : endsValue bl = true := by
  cases bl with
  | nil => rfl
  | cons b bl => simp [endsValue, h b (by simp)]

theorem skipBlanks_blanks {bl : Bytes} (h : Blanks bl) : skipBlanks bl = [] := by
  have hskip := skipBlanks_append h []
  rwa [List.append_nil] at hskip

theorem nesting_document {n : Nat} {front text back : List Char} {v : Json} (hfront : Space front)
    (htext : Legible n text v) (hback : Space back) :
    nesting (Utf8.encode (front ++ (text ++ back))) = n := by
  have h := (nests_blanks (blanks_of_space hfront)).append
    (htext.nests.append (nests_blanks (blanks_of_space hback)))
  rw [Nat.max_zero, Nat.zero_max] at h
  rw [Utf8.encode_append, Utf8.encode_append]
  exact h.nesting_eq

theorem ofBytes_of_document {bytes : Bytes} {v : Json} (h : Document bytes v) :
    ofBytes bytes = .ok v := by
  obtain ⟨hnesting, front, text, back, hfront, htext, hback, rfl⟩ := h
  obtain ⟨n, hlegible⟩ := legible_of_denotes htext
  rw [nesting_document hfront hlegible hback] at hnesting
  have hblanks := blanks_of_space hback
  have hread := (hlegible.reads maxDepth (endsValue_of_blanks hblanks)).ok hnesting
  rw [← read_blanks _ _ (blanks_of_space hfront)] at hread
  simp only [ofBytes, readWhole, Utf8.encode_append, hread, skipBlanks_blanks hblanks]

/-- What is read at the front, with the blanks behind it, is a document. -/
theorem document_of_read {bytes rest after : Bytes} {v : Json}
    (h : read maxDepth bytes = .ok (v, rest)) (hafter : skipBlanks rest = after) :
    ∃ doc, Document doc v ∧ bytes = doc ++ after := by
  obtain ⟨front, text, n, hfront, htext, hlegible, hn, rfl⟩ := recognizes_read maxDepth h
  obtain ⟨back, hback, rfl⟩ := exists_space hafter
  refine ⟨Utf8.encode (front ++ (text ++ back)), ⟨?_, front, text, back, hfront, htext, hback, rfl⟩,
    ?_⟩
  · rw [nesting_document hfront hlegible hback]
    exact hn
  · simp only [Utf8.encode_append, List.append_assoc]

theorem ofBytes_eq_ok_iff {bytes : Bytes} {v : Json} :
    ofBytes bytes = .ok v ↔ Document bytes v := by
  refine ⟨fun h => ?_, ofBytes_of_document⟩
  rw [ofBytes, readWhole] at h
  cases hread : read maxDepth bytes with
  | error f =>
    simp only [hread] at h
    cases h
  | ok p =>
    simp only [hread] at h
    cases hskip : skipBlanks p.2 with
    | nil =>
      simp only [hskip] at h
      cases h
      obtain ⟨doc, hdoc, rfl⟩ := document_of_read hread hskip
      rwa [List.append_nil]
    | cons c after =>
      simp only [hskip] at h
      cases h

/-- Without a path the error is about a byte behind a whole document. -/
theorem exists_document_of_path_none {bytes : Bytes} {e : ReadError} (h : ofBytes bytes = .error e)
    (hpath : e.path = none) :
    ∃ doc v c after, Document doc v ∧ isBlank c = false ∧ bytes = doc ++ c :: after := by
  rw [ofBytes, readWhole] at h
  cases hread : read maxDepth bytes with
  | error f =>
    simp only [hread] at h
    cases h
    cases hpath
  | ok p =>
    simp only [hread] at h
    cases hskip : skipBlanks p.2 with
    | nil =>
      simp only [hskip] at h
      cases h
    | cons c after =>
      obtain ⟨doc, hdoc, rfl⟩ := document_of_read hread hskip
      have hc : isBlank c = false := by
        have hhead := List.head?_dropWhile_not isBlank p.2
        rw [← skipBlanks, hskip] at hhead
        simpa using hhead
      exact ⟨doc, p.1, c, after, hdoc, hc, rfl⟩

/-- The bytes that are accepted, and for what value. An error without a path is about what
stands behind a whole document. The encoding of a text is never at fault, and so a text has
the same answer as its bytes. -/
theorem documents_of_bytes :
    (∀ bytes v, ofBytes bytes = .ok v ↔ Document bytes v) ∧
    (∀ bytes e, ofBytes bytes = .error e → e.path = none →
      ∃ doc v c after, Document doc v ∧ isBlank c = false ∧ bytes = doc ++ c :: after) ∧
    (∀ bytes text, Utf8.decode bytes = some text →
      ofText text = ofBytes bytes ∧
        ∀ e, ofBytes bytes = .error e → e.cause ≠ .invalidCodePoint) ∧
    (∀ pairs : List (String × Json),
      Members.keys (Members.ofPairs pairs) = (Members.keys pairs).eraseDups ∧
        ∀ k, Members.find? k (Members.ofPairs pairs) = Members.find? k pairs.reverse) := by
  refine ⟨fun _ _ => ofBytes_eq_ok_iff, fun _ _ => exists_document_of_path_none,
    fun bytes text h => ?_, fun pairs => ⟨Members.keys_ofPairs pairs,
      fun k => Members.find?_ofPairs k pairs⟩⟩
  obtain rfl := Utf8.decode_eq_some h
  exact ⟨rfl, fun e he => cause_of_text he⟩

def trailing : String := " [1, \x7b\"a\": 0, \"a\": null\x7d] x"

theorem documents_of_bytes_trailing :
    (∃ e, ofBytes (Utf8.ofString trailing) = .error e ∧ e.path = none) ∧
      Utf8.decode (Utf8.ofString trailing) = some trailing ∧
      ofText trailing = ofBytes (Utf8.ofString trailing) ∧
      ∃ doc v c after, Document doc v ∧ isBlank c = false ∧
        Utf8.ofString trailing = doc ++ c :: after := by
  obtain ⟨-, hpathless, htext, -⟩ := documents_of_bytes
  have hdecode := Utf8.decode_ofString trailing
  have hsame := (htext _ _ hdecode).1
  have hcheck : (match ofBytes (Utf8.ofString trailing) with
      | .error e => e.path.isNone
      | .ok _ => false) = true := by decide +kernel
  cases he : ofBytes (Utf8.ofString trailing) with
  | ok v =>
    rw [he] at hcheck
    cases hcheck
  | error e =>
    rw [he] at hcheck
    have hpath : e.path = none := Option.isNone_iff_eq_none.mp hcheck
    exact ⟨⟨e, rfl, hpath⟩, hdecode, hsame.trans he, hpathless _ _ he hpath⟩

/-- A literal whose number is just below the largest double. -/
def edge : NumberLiteral where
  negative := false
  whole := ⟨['1'], by decide, List.all_eq_true.mp rfl⟩
  fraction := some ⟨"7976931348623157000".toList, by decide, List.all_eq_true.mp rfl⟩
  exponent := some ⟨false, .absent, ⟨"308".toList, by decide, List.all_eq_true.mp rfl⟩⟩
  leading := by decide

/-- Its leading digits, rounded, times the rounded power of ten are beyond all doubles, and so
it is refused. -/
theorem edge_refused :
    edge.chars = "1.7976931348623157000e308".toList ∧
      (edge.decimal.toBinary Format.double).isSome = true ∧
      ¬∃ v, ofBytes (Utf8.encode edge.chars) = .ok v := by
  refine ⟨by decide, by decide +kernel, ?_⟩
  have hrefused : (ofBytes (Utf8.encode edge.chars)).isOk = false := by decide +kernel
  rintro ⟨v, hv⟩
  rw [hv] at hrefused
  cases hrefused

end Json

end SchemaByExample
