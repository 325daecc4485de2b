import Mathlib.Data.List.Forall2
import SchemaByExample.Command.Run
import SchemaByExample.Proofs.Command.Loading
import SchemaByExample.Proofs.Json.Layout
import SchemaByExample.Proofs.Json.Path
import SchemaByExample.Proofs.Schema.FrontDoors

/-! Documents one to a line, and the same documents one to a file. The two ways of loading
agree: compact text is one line, whatever its strings hold, and every text of a value is read
as the same value. -/
namespace SchemaByExample

/-! Lines. -/

namespace Text

theorem dropReturn_of_notMem {line : List Char} (h : '\r' ∉ line) : dropReturn line = line := by
  rw [dropReturn]
  split
  · rename_i rest hrest
    have hmem : '\r' ∈ line.reverse := hrest ▸ List.mem_cons_self
    exact absurd (List.mem_reverse.mp hmem) h
  · rfl

theorem dropReturn_return (line : List Char) : dropReturn (line ++ ['\r']) = line := by
  simp [dropReturn]

theorem mem_of_mem_dropReturn {line : List Char} {c : Char} (h : c ∈ dropReturn line) :
    c ∈ line := by
  rw [dropReturn] at h
  split at h
  · rename_i rest hrest
    have hmem : c ∈ line.reverse := hrest ▸ List.mem_cons_of_mem _ (List.mem_reverse.mp h)
    exact List.mem_reverse.mp hmem
  · exact h

/-- A line that a line feed ends is the first, and the others are those of what follows. -/
theorem numberLines_append {line : List Char} (h : '\n' ∉ line) (n : Nat) (rest : List Char) :
    numberLines n (split '\n' (line ++ '\n' :: rest)) =
      (n, dropReturn line) :: numberLines (n + 1) (split '\n' rest) := by
  rw [split_append h]
  cases hrest : split '\n' rest with
  | nil => exact absurd hrest (split_ne_nil '\n' rest)
  | cons p ps => rfl

theorem numberLines_last {line : List Char} (h : '\n' ∉ line) (n : Nat) :
    numberLines n (split '\n' line) = if line.isEmpty then [] else [(n, line)] := by
  rw [split_of_notMem h]
  rfl

end Text

namespace Command

open Files Json

/-! A listing has the values one to a line. -/

def BlankLine (line : List Char) : Prop := ∀ c ∈ line, Text.isWhiteSpace c = true ∧ c ≠ '\n'

/-- Texts that have the values in compact layout, one to a line, and blank lines anywhere. The
last line may lack its line end. -/
inductive Listed : List Json → List Char → Prop
  | rest {bl : List Char} : BlankLine bl → Listed [] bl
  | last (v : Json) : Listed [v] v.compact.toList
  | blank {vs : List Json} {bl text : List Char} : BlankLine bl → Listed vs text →
      Listed vs (bl ++ '\n' :: text)
  | lineFeed (v : Json) {vs : List Json} {text : List Char} : Listed vs text →
      Listed (v :: vs) (v.compact.toList ++ '\n' :: text)
  | returned (v : Json) {vs : List Json} {text : List Char} : Listed vs text →
      Listed (v :: vs) (v.compact.toList ++ '\r' :: '\n' :: text)

structure Reading (v w : Json) : Prop where
  compact : Json.ofText v.compact = .ok w
  pretty : Json.ofText v.pretty = .ok w

theorem reading_of_rereads {v w : Json} (h : Rereads v w) (hle : v.depth ≤ maxDepth) :
    Reading v w where
  compact := (Schema.ofText_of_spells h (Schema.spells_render blank_compact v)).1 hle
  pretty := (Schema.ofText_of_spells h (Schema.spells_render blank_pretty v)).1 hle

theorem exists_reading {v : Json} (hd : v.Distinct) (hle : v.depth ≤ maxDepth) :
    ∃ w, Reading v w := by
  obtain ⟨w, hw⟩ := exists_rereads v hd
  exact ⟨w, reading_of_rereads hw hle⟩

/-- A value without doubles is read as itself. -/
theorem reading_self {v : Json} (hd : v.Distinct) (hle : v.depth ≤ maxDepth) (hi : v.Integral) :
    Reading v v := by
  obtain ⟨w, hw⟩ := exists_rereads v hd
  have hsame := hw.same hi
  exact reading_of_rereads (hsame ▸ hw) hle

theorem all_isWhiteSpace_compact (v : Json) :
    v.compact.toList.all Text.isWhiteSpace = false := by
  obtain ⟨c, cs, hc, hspace⟩ := exists_head_compact 0 v
  rw [Json.compact, String.toList_ofList, hc, List.all_cons, hspace, Bool.false_and]

section Lines

variable (label : String) (n : Nat)

theorem parseLines_blank {line : List Char} (h : BlankLine line)
    (rest : List (Nat × List Char)) :
    parseLines label ((n, line) :: rest) = parseLines label rest := by
  have hall : line.all Text.isWhiteSpace = true := List.all_eq_true.mpr fun c hc => (h c hc).1
  rw [parseLines, if_pos hall]

theorem parseLines_compact {v w : Json} (h : Reading v w) {rest : List (Nat × List Char)}
    {ws : List Json} (hrest : parseLines label rest = .ok ws) :
    parseLines label ((n, v.compact.toList) :: rest) = .ok (w :: ws) := by
  have hnot : ¬v.compact.toList.all Text.isWhiteSpace = true := by
    rw [all_isWhiteSpace_compact]
    exact Bool.false_ne_true
  rw [parseLines, if_neg hnot, String.ofList_toList, h.compact, hrest]
  rfl

end Lines

theorem BlankLine.dropReturn {line : List Char} (h : BlankLine line) :
    BlankLine (Text.dropReturn line) := fun c hc => h c (Text.mem_of_mem_dropReturn hc)

/-- The documents of a listing are its values as they are read, whatever the line ends and the
blank lines. -/
theorem parseLines_of_listed (label : String) {vs ws : List Json} {text : List Char}
    (h : Listed vs text) (hread : List.Forall₂ Reading vs ws) (n : Nat) :
    parseLines label (Text.numberLines n (Text.split '\n' text)) = .ok ws := by
  induction h generalizing n ws with
  | rest hbl =>
    cases hread
    rw [Text.numberLines_last fun hmem => (hbl _ hmem).2 rfl]
    split
    · rfl
    · exact parseLines_blank label n hbl []
  | last v =>
    obtain _ | ⟨hw, ⟨⟩⟩ := hread
    have hne : ¬v.compact.toList.isEmpty = true := by
      intro hempty
      have hall := all_isWhiteSpace_compact v
      rw [List.isEmpty_iff.mp hempty] at hall
      cases hall
    rw [Text.numberLines_last (lineFeed_notMem_compact v), if_neg hne]
    exact parseLines_compact label n hw rfl
  | blank hbl _ ih =>
    rw [Text.numberLines_append fun hmem => (hbl _ hmem).2 rfl,
      parseLines_blank label n hbl.dropReturn]
    exact ih hread (n + 1)
  | lineFeed v _ ih =>
    obtain _ | ⟨hw, hws⟩ := hread
    rw [Text.numberLines_append (lineFeed_notMem_compact v),
      Text.dropReturn_of_notMem (return_notMem_compact v)]
    exact parseLines_compact label n hw (ih hws (n + 1))
  | @returned v vs text _ ih =>
    obtain _ | ⟨hw, hws⟩ := hread
    have hline : '\n' ∉ v.compact.toList ++ ['\r'] := by
      simpa using lineFeed_notMem_compact v
    have hcut : v.compact.toList ++ '\r' :: '\n' :: text =
        (v.compact.toList ++ ['\r']) ++ '\n' :: text := by simp
    rw [hcut, Text.numberLines_append hline, Text.dropReturn_return]
    exact parseLines_compact label n hw (ih hws (n + 1))

/-! What is selected, without the names that errors carry. -/

theorem toOption_bind {α β : Type} (x : Except LoadError α) (f : α → Except LoadError β) :
    (x >>= f).toOption = x.toOption.bind fun a => (f a).toOption := by
  cases x <;> rfl

def joined? (xs ys : Option (List Json)) : Option (List Json) := do return (← xs) ++ (← ys)

theorem toOption_append (x y : Except LoadError (List Json)) :
    (do return (← x) ++ (← y) : Except LoadError (List Json)).toOption =
      joined? x.toOption y.toOption := by
  cases x <;> cases y <;> rfl

theorem joined?_some_nil (xs : Option (List Json)) : joined? xs (some []) = xs := by
  cases xs with
  | none => rfl
  | some xs => exact congrArg some (List.append_nil xs)

section Selected

variable (engine : Filter.Engine)

def selected? (pointer filter : Option String) (v : Json) : Option (List Json) :=
  (select engine { pointer := pointer, filter := filter } "" v).toOption

def selectedAll? (pointer filter : Option String) (vs : List Json) : Option (List Json) :=
  vs.foldr (fun v more => joined? (selected? engine pointer filter v) more) (some [])

/-- The name of the source stands in errors only. -/
theorem toOption_select (s : InputSettings) (label : String) (v : Json) :
    (select engine s label v).toOption = selected? engine s.pointer s.filter v := by
  rw [selected?, select_eq_bind, select_eq_bind, toOption_bind, toOption_bind]
  have hpointed : (pointed s label v).toOption =
      (pointed { pointer := s.pointer, filter := s.filter } "" v).toOption := by
    simp only [pointed]
    cases s.pointer with
    | none => rfl
    | some p =>
      cases hp : Pointer.resolve p v with
      | none =>
        simp only [hp]
        rfl
      | some w => simp only [hp]
  rw [hpointed]
  rfl

theorem toOption_selectAll (s : InputSettings) (label : String) (vs : List Json) :
    (selectAll engine s label vs).toOption = selectedAll? engine s.pointer s.filter vs := by
  induction vs with
  | nil => rfl
  | cons v rest ih =>
    have h := toOption_append (select engine s label v) (selectAll engine s label rest)
    rw [toOption_select, ih] at h
    exact h

end Selected

/-! Loading. -/

variable {engine : Filter.Engine}

def LiteralPath (path : String) : Prop := path ≠ "-" ∧ isPattern path = false

/-- The file has the value, and nothing else, in one of the layouts. -/
structure Holds (disk : Disk) (path : String) (v : Json) : Prop where
  literal : LiteralPath path
  content : ∃ text ∈ [v.compact, v.pretty], disk.read path = .ok (Utf8.ofString text)
  distinct : v.Distinct
  depth : v.depth ≤ 127

theorem resolve_of_literal (glob : String → Matches) {paths : List String}
    (h : ∀ p ∈ paths, LiteralPath p) : resolve glob paths = .ok (paths.map .path) := by
  induction paths with
  | nil => rfl
  | cons p rest ih =>
    obtain ⟨hp, hrest⟩ := List.forall_mem_cons.mp h
    have hone : resolveOne glob p = .ok [.path p] := by
      rw [resolveOne, if_neg hp.1, if_neg (by simp [hp.2])]
    rw [resolve, hone, ih hrest]
    rfl

theorem load_of_literal (disk : Disk) (stdin : Bytes) {s : InputSettings}
    (h : ∀ p ∈ s.inputs, LiteralPath p) :
    load engine disk stdin s = loadSources engine disk s stdin (s.inputs.map .path) := by
  rw [load, loadWith, resolve_of_literal _ h]
  rfl

/-- The documents of a file are selected from before the next source is read. -/
theorem toOption_loadSources_path {disk : Disk} {s : InputSettings} {path text : String}
    {ws : List Json} (hread : disk.read path = .ok (Utf8.ofString text))
    (hparse : parseDocuments s.ndjson path text = .ok ws) (stdin : Bytes) (rest : List Source) :
    (loadSources engine disk s stdin (.path path :: rest)).toOption =
      joined? (selectedAll? engine s.pointer s.filter ws)
        (loadSources engine disk s stdin rest).toOption := by
  have hsource : readSource disk stdin (.path path) = .ok (text, stdin) := by
    simp only [readSource, hread, pure, Except.pure, bind, Except.bind, Utf8.decode_ofString]
  have h := toOption_append (selectAll engine s path ws) (loadSources engine disk s stdin rest)
  rw [toOption_selectAll] at h
  rw [loadSources, hsource, ← h]
  simp only [bind, Except.bind, Source.label, hparse]

theorem parseDocuments_of_reading {path text : String} {v w : Json}
    (h : Reading v w) (htext : text ∈ [v.compact, v.pretty]) :
    parseDocuments false path text = .ok [w] := by
  have hread : Json.ofText text = .ok w := by
    simp only [List.mem_cons, List.not_mem_nil, or_false] at htext
    obtain rfl | rfl := htext
    · exact h.compact
    · exact h.pretty
  simp only [parseDocuments, Bool.false_eq_true, if_false, hread]

variable {disk : Disk} {files : List (String × Json)}

theorem exists_readings (h : ∀ p ∈ files, Holds disk p.1 p.2) :
    ∃ ws, List.Forall₂ Reading (files.map Prod.snd) ws := by
  induction files with
  | nil => exact ⟨[], .nil⟩
  | cons p rest ih =>
    obtain ⟨hp, hrest⟩ := List.forall_mem_cons.mp h
    obtain ⟨w, hw⟩ := exists_reading hp.distinct hp.depth
    obtain ⟨ws, hws⟩ := ih hrest
    exact ⟨w :: ws, .cons hw hws⟩

theorem toOption_loadSources_files {s : InputSettings} (hs : s.ndjson = false) (stdin : Bytes)
    (h : ∀ p ∈ files, Holds disk p.1 p.2) {ws : List Json}
    (hws : List.Forall₂ Reading (files.map Prod.snd) ws) :
    (loadSources engine disk s stdin ((files.map Prod.fst).map .path)).toOption =
      selectedAll? engine s.pointer s.filter ws := by
  induction files generalizing ws with
  | nil =>
    cases hws
    rfl
  | cons p rest ih =>
    obtain ⟨hp, hrest⟩ := List.forall_mem_cons.mp h
    rw [List.map_cons, List.forall₂_cons_left_iff] at hws
    obtain ⟨w, ws, hw, hws, rfl⟩ := hws
    obtain ⟨text, htext, hread⟩ := hp.content
    have hparse : parseDocuments s.ndjson p.1 text = .ok [w] :=
      hs ▸ parseDocuments_of_reading hw htext
    rw [List.map_cons, List.map_cons, toOption_loadSources_path hread hparse, ih hrest hws]
    simp only [selectedAll?, List.foldr_cons, List.foldr_nil, joined?_some_nil]

/-- Files of one value each give what is selected from their values. -/
theorem toOption_load_files (engine : Filter.Engine) {s : InputSettings}
    (hs : s.ndjson = false) (hinputs : s.inputs = files.map Prod.fst) (stdin : Bytes)
    (h : ∀ p ∈ files, Holds disk p.1 p.2) {ws : List Json}
    (hws : List.Forall₂ Reading (files.map Prod.snd) ws) :
    (load engine disk stdin s).toOption = selectedAll? engine s.pointer s.filter ws := by
  have hliteral : ∀ p ∈ s.inputs, LiteralPath p := by
    rw [hinputs]
    exact List.forall_mem_map.mpr fun p hp => (h p hp).literal
  rw [load_of_literal disk stdin hliteral, hinputs]
  exact toOption_loadSources_files hs stdin h hws

/-- A listing gives what is selected from its values. -/
theorem toOption_load_listing (engine : Filter.Engine) {s : InputSettings}
    (hs : s.ndjson = true) {path : String} (hinputs : s.inputs = [path])
    (hpath : LiteralPath path) {vs ws : List Json} {text : List Char} (htext : Listed vs text)
    (hread : disk.read path = .ok (Utf8.encode text)) (stdin : Bytes)
    (hws : List.Forall₂ Reading vs ws) :
    (load engine disk stdin s).toOption = selectedAll? engine s.pointer s.filter ws := by
  have hliteral : ∀ p ∈ s.inputs, LiteralPath p := by
    rw [hinputs]
    exact List.forall_mem_singleton.mpr hpath
  have hcontent : disk.read path = .ok (Utf8.ofString (String.ofList text)) := by
    rw [hread, Utf8.ofString, String.toList_ofList]
  have hparse : parseDocuments s.ndjson path (String.ofList text) = .ok ws := by
    rw [parseDocuments, if_pos hs, String.toList_ofList]
    exact parseLines_of_listed path htext hws 1
  rw [load_of_literal disk stdin hliteral, hinputs, List.map_singleton,
    toOption_loadSources_path hcontent hparse]
  exact joined?_some_nil _

/-- Each file by itself gives its part of what all of them give. -/
theorem selectedAll?_of_parts {s : InputSettings} (stdin : Bytes)
    (h : ∀ p ∈ files, Holds disk p.1 p.2) {ws : List Json}
    (hws : List.Forall₂ Reading (files.map Prod.snd) ws) {parts : List (List Json)}
    (hparts : List.Forall₂ (fun p documents => load engine disk stdin
      { s with ndjson := false, inputs := [p.1] } = .ok documents) files parts) :
    selectedAll? engine s.pointer s.filter ws = some parts.flatten := by
  induction hparts generalizing ws with
  | nil =>
    cases hws
    rfl
  | @cons p documents rest parts hload _ ih =>
    obtain ⟨hp, hrest⟩ := List.forall_mem_cons.mp h
    rw [List.map_cons, List.forall₂_cons_left_iff] at hws
    obtain ⟨w, ws, hw, hws, rfl⟩ := hws
    have hinputs : ({ s with ndjson := false, inputs := [p.1] } : InputSettings).inputs =
        [p].map Prod.fst := rfl
    have hone := toOption_load_files engine rfl hinputs stdin
      (List.forall_mem_singleton.mpr hp) (.cons hw .nil)
    rw [hload] at hone
    simp only [selectedAll?, List.foldr_cons, List.foldr_nil, joined?_some_nil] at hone
    have hmore := ih hrest hws
    rw [selectedAll?] at hmore
    rw [selectedAll?, List.foldr_cons, ← hone, hmore]
    rfl

/-! Runs. -/

/-- Requests that differ in their inputs only and load the same documents, or both fail, leave
the same behind but for the report of the failure. -/
theorem runRequest_of_toOption {r : Request} {i j : InputSettings} {stdin : Bytes}
    (h : (load engine disk stdin i).toOption = (load engine disk stdin j).toOption) :
    (runRequest engine disk stdin { r with input := i }).1.status =
        (runRequest engine disk stdin { r with input := j }).1.status ∧
      (runRequest engine disk stdin { r with input := i }).1.stdout =
        (runRequest engine disk stdin { r with input := j }).1.stdout ∧
      (runRequest engine disk stdin { r with input := i }).2 =
        (runRequest engine disk stdin { r with input := j }).2 := by
  cases r.noOp with
  | true => simp only [runRequest, if_true, and_self]
  | false =>
    simp only [runRequest, Bool.false_eq_true, if_false]
    cases hi : load engine disk stdin i with
    | error e =>
      cases hj : load engine disk stdin j with
      | error e' => exact ⟨rfl, rfl, rfl⟩
      | ok documents =>
        rw [hi, hj] at h
        cases h
    | ok documents =>
      cases hj : load engine disk stdin j with
      | error e' =>
        rw [hi, hj] at h
        cases h
      | ok documents' =>
        rw [hi, hj] at h
        cases h
        exact ⟨rfl, rfl, rfl⟩

theorem eq_ok_of_toOption {α : Type} {x : Except LoadError α} {a : α}
    (h : x.toOption = some a) : x = .ok a := by
  cases x with
  | error e => cases h
  | ok b => exact congrArg Except.ok (Option.some.inj h)

/-- Values one to a file and the same values one to a line give one answer: the runs end
alike, print the same text and leave the same disk. If every file loads by itself, they print
the answer for all of the documents in order. -/
theorem run_listing {stdin : Bytes} {r : Request} {apart listed : List String}
    {listing : String} {text : List Char}
    (hfiles : ∀ p ∈ files, Holds disk p.1 p.2)
    (hlisting : LiteralPath listing) (htext : Listed (files.map Prod.snd) text)
    (hread : disk.read listing = .ok (Utf8.encode text))
    (hapart : parse apart = .request
      { r with input := { r.input with ndjson := false, inputs := files.map Prod.fst } })
    (hlisted : parse listed = .request
      { r with input := { r.input with ndjson := true, inputs := [listing] } }) :
    ((runWith engine disk stdin apart).1.status = (runWith engine disk stdin listed).1.status ∧
      (runWith engine disk stdin apart).1.stdout = (runWith engine disk stdin listed).1.stdout ∧
      (runWith engine disk stdin apart).2 = (runWith engine disk stdin listed).2) ∧
    ∀ parts, List.Forall₂ (fun p documents => load engine disk stdin
        { r.input with ndjson := false, inputs := [p.1] } = .ok documents) files parts →
      r.noOp = false → r.out = none →
        runWith engine disk stdin apart =
            (⟨0, outputText r parts.flatten ++ "\n", ""⟩, disk) ∧
          runWith engine disk stdin listed =
            (⟨0, outputText r parts.flatten ++ "\n", ""⟩, disk) := by
  obtain ⟨ws, hws⟩ := exists_readings hfiles
  have hinputs : ({ r.input with ndjson := false, inputs := files.map Prod.fst } :
      InputSettings).inputs = files.map Prod.fst := rfl
  have hloadFiles := toOption_load_files engine rfl hinputs stdin hfiles hws
  have hinput : ({ r.input with ndjson := true, inputs := [listing] } : InputSettings).inputs =
      [listing] := rfl
  have hloadListing := toOption_load_listing engine rfl hinput hlisting htext hread stdin hws
  simp only [runWith, hapart, hlisted]
  refine ⟨runRequest_of_toOption (hloadFiles.trans hloadListing.symm),
    fun parts hparts hnoOp hout => ?_⟩
  have hselected := selectedAll?_of_parts stdin hfiles hws hparts
  have hfilesOk := eq_ok_of_toOption (hloadFiles.trans hselected)
  have hlistingOk := eq_ok_of_toOption (hloadListing.trans hselected)
  simp only [runRequest, hnoOp, Bool.false_eq_true, if_false, hfilesOk, hlistingOk, hout]
  exact ⟨rfl, rfl⟩

theorem selectedAll?_none (vs : List Json) : selectedAll? engine none none vs = some vs := by
  induction vs with
  | nil => rfl
  | cons v rest ih => exact congrArg (joined? (some [v])) ih

/-- Files with values without doubles give the values, whatever inputs lead to them. -/
theorem load_resolved (engine : Filter.Engine) {inputs : List String}
    (hresolve : resolve (glob disk) inputs = .ok ((files.map Prod.fst).map .path))
    (h : ∀ p ∈ files, Holds disk p.1 p.2) (hi : ∀ p ∈ files, p.2.Integral) (stdin : Bytes) :
    load engine disk stdin { inputs := inputs } = .ok (files.map Prod.snd) := by
  have hread : List.Forall₂ Reading (files.map Prod.snd) (files.map Prod.snd) :=
    List.forall₂_same.mpr (List.forall_mem_map.mpr fun p hp =>
      reading_self (h p hp).distinct (h p hp).depth (hi p hp))
  rw [load, loadWith, hresolve]
  exact eq_ok_of_toOption
    ((toOption_loadSources_files rfl stdin h hread).trans (selectedAll?_none _))

theorem load_files (engine : Filter.Engine) (h : ∀ p ∈ files, Holds disk p.1 p.2)
    (hi : ∀ p ∈ files, p.2.Integral) (stdin : Bytes) :
    load engine disk stdin { inputs := files.map Prod.fst } = .ok (files.map Prod.snd) :=
  load_resolved engine
    (resolve_of_literal _ (List.forall_mem_map.mpr fun p hp => (h p hp).literal)) h hi stdin

theorem load_file (engine : Filter.Engine) {path : String} {v : Json} (h : Holds disk path v)
    (hi : v.Integral) (stdin : Bytes) :
    load engine disk stdin { inputs := [path] } = .ok [v] := by
  have hfile : ∀ p ∈ [(path, v)], Holds disk p.1 p.2 := List.forall_mem_singleton.mpr h
  exact load_files engine hfile (List.forall_mem_singleton.mpr hi) stdin

def note : Json := .object [("text", .string "one\r\ntwo\u2028three"), ("rest", .array [.null])]

/-- Two values of which one is in pretty layout, and a listing of both: behind a blank line the
first with a carriage return before the line end, the second without one. -/
def tray : Disk :=
  ⟨[(["w"], .directory), (["w", "a.json"], .file (Utf8.ofString note.pretty)),
    (["w", "b.json"], .file (Utf8.ofString (Json.array []).compact)),
    (["w", "all.ndjson"], .file (Utf8.encode ([' ', '\u2003'] ++ '\n' ::
      (note.compact.toList ++ '\r' :: '\n' :: (Json.array []).compact.toList))))], ["w"]⟩

def served : List (String × Json) := [("a.json", note), ("b.json", .array [])]

theorem holds_served : ∀ p ∈ served, Holds tray p.1 p.2 := by
  simp only [served, List.forall_mem_cons]
  exact ⟨⟨⟨by decide, by decide⟩, ⟨note.pretty, by simp, rfl⟩, by decide, by decide⟩,
    ⟨⟨by decide, by decide⟩, ⟨(Json.array []).compact, by simp, rfl⟩, by decide, by decide⟩,
    by simp⟩

theorem integral_served : ∀ p ∈ served, p.2.Integral := by
  simp only [served, List.forall_mem_cons]
  exact ⟨⟨trivial, ⟨trivial, trivial⟩, trivial⟩, trivial, by simp⟩

theorem run_listing_tray :
    (∀ p ∈ served, Holds tray p.1 p.2) ∧
      LiteralPath "all.ndjson" ∧
      run tray [] ["shape", "--compact", "-i", "a.json", "b.json"] =
        run tray [] ["shape", "--ndjson", "-i", "all.ndjson", "--compact"] ∧
      (run tray [] ["shape", "--compact", "-i", "a.json", "b.json"]).1.status = 0 := by
  have hload : ∀ p ∈ served, load Filter.language tray [] { inputs := [p.1] } = .ok [p.2] :=
    fun p hp => load_file Filter.language (holds_served p hp) (integral_served p hp) []
  have hlisting : LiteralPath "all.ndjson" := ⟨by decide, by decide⟩
  have hblank : BlankLine [' ', '\u2003'] := List.all_iff_forall_prop.mp (by decide)
  have hapart : parse ["shape", "--compact", "-i", "a.json", "b.json"] =
      .request
        { product := .shape, compact := true, input := { inputs := ["a.json", "b.json"] } } := rfl
  have hlisted : parse ["shape", "--ndjson", "-i", "all.ndjson", "--compact"] =
      .request { product := .shape, compact := true,
                 input := { ndjson := true, inputs := ["all.ndjson"] } } := rfl
  have h := (run_listing (r := { product := .shape, compact := true }) holds_served hlisting
    (.blank hblank (.returned note (.last _))) rfl hapart hlisted).2
    [[note], [.array []]] (.cons (hload _ (by simp [served])) (.cons (hload _ (by simp [served]))
      .nil)) rfl rfl
  exact ⟨holds_served, hlisting, h.1.trans h.2.symm, by rw [run, h.1]⟩

end Command

end SchemaByExample
