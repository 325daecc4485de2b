import SchemaByExample.Command.Load
import SchemaByExample.Proofs.Files.Contents

/-! Loading as a list of steps in their order: each input is resolved, then each source is
read, all of its documents are parsed, and each is selected from. The first step that fails
ends the whole, and if none fails the results stand one after the other. -/
namespace SchemaByExample.Command

open Files

section Steps

variable {α β ι : Type}

/-- The error of the first step that fails, or the results of all steps. -/
def outcome : List (Except LoadError (List α)) → Except LoadError (List α)
  | [] => .ok []
  | step :: rest => do
    let vs ← step
    return vs ++ (← outcome rest)

def results : Except LoadError (List α) → List α
  | .ok vs => vs
  | .error _ => []

/-- A step of which only the failure counts. -/
def quiet (step : Except LoadError (List α)) : Except LoadError (List β) := step.map fun _ => []

theorem outcome_append (steps more : List (Except LoadError (List α))) :
    outcome (steps ++ more) = do return (← outcome steps) ++ (← outcome more) := by
  induction steps with
  | nil =>
    cases h : outcome more <;> simp [outcome, h, bind, Except.bind, pure, Except.pure]
  | cons step rest ih =>
    rw [List.cons_append, outcome, ih, outcome]
    cases step with
    | error e => rfl
    | ok vs =>
      cases hrest : outcome rest with
      | error e => rfl
      | ok ws =>
        cases hmore : outcome more with
        | error e => rfl
        | ok us => simp [bind, Except.bind, pure, Except.pure]

theorem outcome_eq_ok_iff {steps : List (Except LoadError (List α))} {vs : List α} :
    outcome steps = .ok vs ↔
      ∃ parts : List (List α), steps = parts.map .ok ∧ vs = parts.flatten := by
  induction steps generalizing vs with
  | nil =>
    constructor
    · intro h
      cases h
      exact ⟨[], rfl, rfl⟩
    · rintro ⟨parts, hparts, rfl⟩
      rw [List.map_eq_nil_iff.mp hparts.symm]
      rfl
  | cons step rest ih =>
    constructor
    · intro h
      cases step with
      | error e => cases h
      | ok part =>
        cases hrest : outcome rest with
        | error e =>
          simp only [outcome, hrest] at h
          cases h
        | ok ws =>
          simp only [outcome, hrest] at h
          cases h
          obtain ⟨parts, rfl, rfl⟩ := ih.mp hrest
          exact ⟨part :: parts, rfl, rfl⟩
    · rintro ⟨parts, hparts, rfl⟩
      cases parts with
      | nil => cases hparts
      | cons part parts =>
        obtain ⟨rfl, hrest⟩ := List.cons.inj hparts
        rw [outcome, ih.mpr ⟨parts, hrest, rfl⟩]
        rfl

theorem outcome_eq_error_iff {steps : List (Except LoadError (List α))} {e : LoadError} :
    outcome steps = .error e ↔
      ∃ (parts : List (List α)) (after : List (Except LoadError (List α))),
        steps = parts.map .ok ++ .error e :: after := by
  induction steps with
  | nil =>
    constructor
    · intro h
      cases h
    · rintro ⟨parts, after, h⟩
      simp at h
  | cons step rest ih =>
    constructor
    · intro h
      cases step with
      | error e' =>
        cases h
        exact ⟨[], rest, rfl⟩
      | ok part =>
        cases hrest : outcome rest with
        | error e' =>
          simp only [outcome, hrest] at h
          cases h
          obtain ⟨parts, after, rfl⟩ := ih.mp hrest
          exact ⟨part :: parts, after, rfl⟩
        | ok ws =>
          simp only [outcome, hrest] at h
          cases h
    · rintro ⟨parts, after, h⟩
      cases parts with
      | nil =>
        obtain ⟨rfl, -⟩ := List.cons.inj h
        rfl
      | cons part parts =>
        obtain ⟨rfl, hrest⟩ := List.cons.inj h
        rw [outcome, ih.mpr ⟨parts, after, hrest⟩]
        rfl

theorem outcome_singleton (step : Except LoadError (List α)) : outcome [step] = step := by
  cases step with
  | error e => rfl
  | ok vs => simp [outcome, bind, Except.bind, pure, Except.pure]

theorem outcome_ok_nil (steps : List (Except LoadError (List α))) :
    outcome (.ok [] :: steps) = outcome steps := by
  rw [outcome]
  cases outcome steps <;> rfl

theorem eq_flatMap_of_outcome {f : ι → Except LoadError (List α)} {xs : List ι} {vs : List α}
    (h : outcome (xs.map f) = .ok vs) : vs = xs.flatMap fun x => results (f x) := by
  obtain ⟨parts, hparts, rfl⟩ := outcome_eq_ok_iff.mp h
  rw [List.flatMap_def]
  congr 1
  calc parts = (parts.map .ok).map results := by
        rw [List.map_map]
        exact (List.map_id' parts).symm
    _ = xs.map fun x => results (f x) := by rw [← hparts, List.map_map]; rfl

theorem outcome_quiet (f : ι → Except LoadError (List α)) (xs : List ι) :
    outcome (xs.map fun x => (quiet (f x) : Except LoadError (List β))) =
      quiet (outcome (xs.map f)) := by
  induction xs with
  | nil => rfl
  | cons x rest ih =>
    rw [List.map_cons, List.map_cons, outcome, outcome, ih]
    cases f x with
    | error e => rfl
    | ok vs => cases outcome (rest.map f) <;> rfl

/-- Steps that are done for their results only, and then steps that depend on these. -/
theorem outcome_quiet_append (f : ι → Except LoadError (List α)) (xs : List ι)
    (rest : List α → List (Except LoadError (List β))) :
    outcome (xs.map (fun x => quiet (f x)) ++ rest (xs.flatMap fun x => results (f x))) =
      outcome (xs.map f) >>= fun vs => outcome (rest vs) := by
  rw [outcome_append, outcome_quiet]
  cases h : outcome (xs.map f) with
  | error e => rfl
  | ok vs =>
    rw [← eq_flatMap_of_outcome h]
    simp only [quiet, Except.map, bind, Except.bind]
    cases outcome (rest vs) <;> rfl

end Steps

/-! The steps of a request. -/

def sourcesOf (glob : String → Matches) (inputs : List String) : List Source :=
  inputs.flatMap fun i => results (resolveOne glob i)

/-- The sources with what the standard input holds for them: the whole of it for the first
that reads it, and nothing for later ones. -/
def delivered (stdin : Bytes) (sources : List Source) : List (Source × Bytes) :=
  sources.zipIdx.map fun (source, i) =>
    (source, if sources.idxOf .stdin = i then stdin else [])

def textOf (disk : Disk) : Source × Bytes → Except LoadError String
  | (source, given) =>
    let content : Except OsError Bytes := match source with
      | .stdin => .ok given
      | .path p => disk.read p
    match content with
    | .error e => .error (.unreadable source.file (.system e))
    | .ok bytes =>
      match Utf8.decode bytes with
      | some text => .ok text
      | none => .error (.unreadable source.file .notText)

def pieces (ndjson : Bool) (text : String) : List (Option Nat × String) :=
  if ndjson then
    ((Text.lines text.toList).filter fun x => !x.2.all Text.isWhiteSpace).map fun x =>
      (some x.1, String.ofList x.2)
  else [(none, text)]

def parsePiece (label : String) (piece : Option Nat × String) : Except LoadError (List Json) :=
  match Json.ofText piece.2 with
  | .ok v => .ok [v]
  | .error e => .error (.text label piece.1 e)

def pointed (s : InputSettings) (label : String) (v : Json) : Except LoadError Json :=
  match s.pointer with
  | none => .ok v
  | some p =>
    match Pointer.resolve p v with
    | some w => .ok w
    | none => .error (.unresolved p label)

section Engine

variable (engine : Filter.Engine)

def filtered (s : InputSettings) (v : Json) : Except LoadError (List Json) :=
  match s.filter with
  | none => .ok [v]
  | some f =>
    match Filter.runWith engine f v with
    | .ok vs => .ok vs
    | .error e => .error (.filter e)

def documentSteps (s : InputSettings) (label : String) (v : Json) :
    List (Except LoadError (List Json)) :=
  match pointed s label v with
  | .error e => [.error e]
  | .ok w => [.ok [], filtered engine s w]

/-- All documents of a text are parsed before any is selected from. -/
def textSteps (s : InputSettings) (label text : String) : List (Except LoadError (List Json)) :=
  let parsed := (pieces s.ndjson text).map (parsePiece label)
  parsed.map quiet ++ (parsed.flatMap results).flatMap (documentSteps engine s label)

def sourceSteps (disk : Disk) (s : InputSettings) (source : Source × Bytes) :
    List (Except LoadError (List Json)) :=
  match textOf disk source with
  | .error e => [.error e]
  | .ok text => .ok [] :: textSteps engine s source.1.label text

/-- All inputs are resolved before any source is read. -/
def loadSteps (glob : String → Matches) (disk : Disk) (stdin : Bytes) (s : InputSettings) :
    List (Except LoadError (List Json)) :=
  s.inputs.map (fun i => quiet (resolveOne glob i)) ++
    (delivered stdin (sourcesOf glob s.inputs)).flatMap (sourceSteps engine disk s)

/-! Each stage of loading has the outcome of its steps. -/

theorem resolve_eq_outcome (glob : String → Matches) (inputs : List String) :
    resolve glob inputs = outcome (inputs.map (resolveOne glob)) := by
  induction inputs with
  | nil => rfl
  | cons input rest ih => rw [resolve, ih, List.map_cons, outcome]

theorem readSource_eq_textOf (disk : Disk) (stdin : Bytes) (source : Source) :
    readSource disk stdin source =
      (textOf disk (source, if source = .stdin then stdin else [])).map fun text =>
        (text, if source = .stdin then [] else stdin) := by
  cases source with
  | stdin =>
    simp only [readSource, textOf, if_true, pure, Except.pure, bind, Except.bind]
    cases Utf8.decode stdin <;> rfl
  | path p =>
    have hne : Source.path p ≠ .stdin := by simp
    simp only [readSource, textOf, if_neg hne]
    cases disk.read p with
    | error e => rfl
    | ok content =>
      simp only [pure, Except.pure, bind, Except.bind]
      cases Utf8.decode content <;> rfl

theorem parseLines_eq_outcome (label : String) (lines : List (Nat × List Char)) :
    parseLines label lines =
      outcome (((lines.filter fun x => !x.2.all Text.isWhiteSpace).map fun x =>
        (some x.1, String.ofList x.2)).map (parsePiece label)) := by
  induction lines with
  | nil => rfl
  | cons x rest ih =>
    obtain ⟨n, line⟩ := x
    rw [parseLines, ih]
    split
    · rename_i hblank
      rw [List.filter_cons_of_neg (by simp [hblank])]
    · rename_i hblank
      rw [List.filter_cons_of_pos (by simpa using hblank), List.map_cons, List.map_cons, outcome]
      simp only [parsePiece]
      cases Json.ofText (String.ofList line) <;> rfl

theorem parseDocuments_eq_outcome (ndjson : Bool) (label text : String) :
    parseDocuments ndjson label text =
      outcome ((pieces ndjson text).map (parsePiece label)) := by
  cases ndjson with
  | true => exact parseLines_eq_outcome label _
  | false =>
    have hpieces : (pieces false text).map (parsePiece label) = [parsePiece label (none, text)] :=
      rfl
    rw [hpieces, outcome_singleton]
    rfl

theorem select_eq_bind (s : InputSettings) (label : String) (v : Json) :
    select engine s label v = pointed s label v >>= filtered engine s := by
  obtain ⟨ndjson, pointer, filter, inputs⟩ := s
  cases pointer with
  | none => cases filter <;> rfl
  | some p =>
    cases hp : Pointer.resolve p v <;> cases filter <;> simp only [select, pointed, hp] <;> rfl

theorem select_eq_outcome (s : InputSettings) (label : String) (v : Json) :
    select engine s label v = outcome (documentSteps engine s label v) := by
  rw [select_eq_bind, documentSteps]
  cases pointed s label v with
  | error e => rfl
  | ok w =>
    have hsteps : outcome [.ok [], filtered engine s w] = filtered engine s w := by
      rw [outcome_ok_nil, outcome_singleton]
    exact hsteps.symm

theorem selectAll_eq_outcome (s : InputSettings) (label : String) (documents : List Json) :
    selectAll engine s label documents =
      outcome (documents.flatMap (documentSteps engine s label)) := by
  induction documents with
  | nil => rfl
  | cons v rest ih => rw [selectAll, ih, List.flatMap_cons, outcome_append, select_eq_outcome]

theorem outcome_sourceSteps (disk : Disk) (s : InputSettings) (source : Source × Bytes) :
    outcome (sourceSteps engine disk s source) = (do
      let text ← textOf disk source
      let documents ← parseDocuments s.ndjson source.1.label text
      selectAll engine s source.1.label documents) := by
  rw [sourceSteps]
  cases textOf disk source with
  | error e => rfl
  | ok text =>
    have hsteps : outcome (textSteps engine s source.1.label text) =
        parseDocuments s.ndjson source.1.label text >>= selectAll engine s source.1.label := by
      have h := outcome_quiet_append (fun p => parsePiece source.1.label p)
        (pieces s.ndjson text) fun vs => vs.flatMap (documentSteps engine s source.1.label)
      simp only [← selectAll_eq_outcome] at h
      rw [parseDocuments_eq_outcome, ← h]
      simp only [textSteps, List.map_map, List.flatMap_map]
      rfl
    rw [outcome_ok_nil, hsteps]
    rfl

theorem delivered_cons (stdin : Bytes) (source : Source) (rest : List Source) :
    delivered stdin (source :: rest) =
      (source, if source = .stdin then stdin else []) ::
        delivered (if source = .stdin then [] else stdin) rest := by
  simp only [delivered, List.zipIdx_cons', List.map_cons, List.map_map, List.idxOf_cons,
    Function.comp_def]
  by_cases h : source = .stdin
  · simp [h]
  · have hb : (source == Source.stdin) = false := by simpa using h
    simp [h, hb]

theorem loadSources_eq_outcome (disk : Disk) (s : InputSettings) (stdin : Bytes)
    (sources : List Source) :
    loadSources engine disk s stdin sources =
      outcome ((delivered stdin sources).flatMap (sourceSteps engine disk s)) := by
  induction sources generalizing stdin with
  | nil => rfl
  | cons source rest ih =>
    rw [loadSources, readSource_eq_textOf, delivered_cons, List.flatMap_cons, outcome_append,
      outcome_sourceSteps, ← ih]
    cases textOf disk (source, if source = .stdin then stdin else []) with
    | error e => rfl
    | ok text =>
      simp only [Except.map, bind, Except.bind, pure, Except.pure]
      cases parseDocuments s.ndjson source.label text with
      | error e => rfl
      | ok documents => cases selectAll engine s source.label documents <;> rfl

theorem loadWith_eq_outcome (glob : String → Matches) (disk : Disk) (stdin : Bytes)
    (s : InputSettings) :
    loadWith engine glob disk stdin s = outcome (loadSteps engine glob disk stdin s) := by
  have h := outcome_quiet_append (resolveOne glob) s.inputs fun sources =>
    (delivered stdin sources).flatMap (sourceSteps engine disk s)
  rw [loadSteps, sourcesOf, h, ← resolve_eq_outcome, loadWith]
  cases resolve glob s.inputs with
  | error e => rfl
  | ok sources => exact loadSources_eq_outcome engine disk s stdin sources

end Engine

variable {engine : Filter.Engine}

theorem loadWith_eq_ok_iff {glob : String → Matches} {disk : Disk} {stdin : Bytes}
    {s : InputSettings} {documents : List Json} :
    loadWith engine glob disk stdin s = .ok documents ↔ ∃ parts : List (List Json),
      loadSteps engine glob disk stdin s = parts.map .ok ∧ documents = parts.flatten := by
  rw [loadWith_eq_outcome, outcome_eq_ok_iff]

theorem loadWith_eq_error_iff {glob : String → Matches} {disk : Disk} {stdin : Bytes}
    {s : InputSettings} {e : LoadError} :
    loadWith engine glob disk stdin s = .error e ↔
      ∃ (parts : List (List Json)) (after : List (Except LoadError (List Json))),
        loadSteps engine glob disk stdin s = parts.map .ok ++ .error e :: after := by
  rw [loadWith_eq_outcome, outcome_eq_error_iff]

/-! What fails before any source is read. -/

/-- The ways in which a pattern leads to no sources: it is not well formed, it comes upon a
directory that cannot be listed, or nothing matches it. -/
inductive LeadsNowhere (glob : String → Matches) (input : String) : LoadError → Prop where
  | malformed {e : PatternError} (h : glob input = .error e) :
    LeadsNowhere glob input (.badPattern input e)
  | unlisted {paths : List String} {e : Unlisted} {after : List (Except Unlisted String)}
    (h : glob input = .ok (paths.map .ok ++ .error e :: after)) :
    LeadsNowhere glob input (.unlisted e)
  | noMatch (h : glob input = .ok []) : LeadsNowhere glob input (.noMatch input)

theorem foundPaths_eq_ok {found : List (Except Unlisted String)} {paths : List String}
    (h : foundPaths found = .ok paths) : found = paths.map .ok := by
  induction found generalizing paths with
  | nil =>
    cases h
    rfl
  | cons x rest ih =>
    cases x with
    | error e => cases h
    | ok path =>
      cases hrest : foundPaths rest with
      | error e =>
        simp only [foundPaths, hrest] at h
        cases h
      | ok more =>
        simp only [foundPaths, hrest] at h
        cases h
        rw [ih hrest, List.map_cons]

theorem foundPaths_eq_error {found : List (Except Unlisted String)} {e : LoadError}
    (h : foundPaths found = .error e) :
    ∃ (paths : List String) (u : Unlisted) (after : List (Except Unlisted String)),
      found = paths.map .ok ++ .error u :: after ∧ e = .unlisted u := by
  induction found with
  | nil => cases h
  | cons x rest ih =>
    cases x with
    | error u =>
      cases h
      exact ⟨[], u, rest, rfl, rfl⟩
    | ok path =>
      cases hrest : foundPaths rest with
      | error e' =>
        simp only [foundPaths, hrest] at h
        cases h
        obtain ⟨paths, u, after, hfound, rfl⟩ := ih hrest
        exact ⟨path :: paths, u, after, by rw [hfound]; rfl, rfl⟩
      | ok more =>
        simp only [foundPaths, hrest] at h
        cases h

theorem foundPaths_unlisted (paths : List String) (u : Unlisted)
    (after : List (Except Unlisted String)) :
    foundPaths (paths.map .ok ++ .error u :: after) = .error (.unlisted u) := by
  induction paths with
  | nil => rfl
  | cons path rest ih =>
    rw [List.map_cons, List.cons_append, foundPaths, ih]
    rfl

theorem resolveOne_eq_error_iff {glob : String → Matches} {input : String} {e : LoadError} :
    resolveOne glob input = .error e ↔
      input ≠ "-" ∧ isPattern input ∧ LeadsNowhere glob input e := by
  constructor
  · intro h
    rw [resolveOne] at h
    split at h
    · cases h
    rename_i hstdin
    split at h
    · rename_i hpattern
      refine ⟨hstdin, hpattern, ?_⟩
      cases hglob : glob input with
      | error e' =>
        simp only [hglob] at h
        cases h
        exact .malformed hglob
      | ok found =>
        simp only [hglob] at h
        cases hfound : foundPaths found with
        | error e' =>
          simp only [hfound] at h
          cases h
          obtain ⟨paths, u, after, rfl, rfl⟩ := foundPaths_eq_error hfound
          exact .unlisted hglob
        | ok paths =>
          cases paths with
          | nil =>
            simp only [hfound] at h
            cases h
            rw [foundPaths_eq_ok hfound] at hglob
            exact .noMatch hglob
          | cons path rest =>
            simp only [hfound] at h
            cases h
    · cases h
  · rintro ⟨hstdin, hpattern, h⟩
    rw [resolveOne, if_neg hstdin, if_pos hpattern]
    cases h with
    | malformed h => rw [h]
    | unlisted h =>
      rw [h]
      simp only [foundPaths_unlisted]
    | noMatch h =>
      rw [h]
      rfl

theorem loadWith_of_unresolved {glob : String → Matches} {s : InputSettings}
    {before after : List String} {input : String} {e : LoadError}
    (hs : s.inputs = before ++ input :: after)
    (hbefore : ∀ i ∈ before, ∃ sources, resolveOne glob i = .ok sources)
    (h : resolveOne glob input = .error e) (disk : Disk) (stdin : Bytes) :
    loadWith engine glob disk stdin s = .error e := by
  have hresolve : resolve glob s.inputs = .error e := by
    rw [hs]
    clear hs
    induction before with
    | nil => rw [List.nil_append, resolve, h]; rfl
    | cons i rest ih =>
      obtain ⟨⟨sources, hi⟩, hrest⟩ := List.forall_mem_cons.mp hbefore
      rw [List.cons_append, resolve, hi, ih hrest]
      rfl
  rw [loadWith, hresolve]
  rfl

/-! A line that is not JSON. -/

theorem outcome_append_error {α : Type} {steps more : List (Except LoadError (List α))}
    {e : LoadError} (h : outcome steps = .error e) : outcome (steps ++ more) = .error e := by
  rw [outcome_append, h]
  rfl

theorem outcome_ok_append {α : Type} {steps more : List (Except LoadError (List α))}
    {vs : List α} {e : LoadError} (h : outcome steps = .ok vs) (hmore : outcome more = .error e) :
    outcome (steps ++ more) = .error e := by
  rw [outcome_append, h, hmore]
  rfl

theorem outcome_parsePiece_error {label : String} {good rest : List (Option Nat × String)}
    {bad : Option Nat × String} {e : ReadError}
    (hgood : ∀ p ∈ good, ∃ v, Json.ofText p.2 = .ok v) (hbad : Json.ofText bad.2 = .error e) :
    outcome ((good ++ bad :: rest).map (parsePiece label)) =
      .error (.text label bad.1 e) := by
  induction good with
  | nil =>
    have h : parsePiece label bad = .error (.text label bad.1 e) := by
      simp only [parsePiece, hbad]
    rw [List.nil_append, List.map_cons, outcome, h]
    rfl
  | cons p more ih =>
    obtain ⟨⟨v, hv⟩, hmore⟩ := List.forall_mem_cons.mp hgood
    have h : parsePiece label p = .ok [v] := by simp only [parsePiece, hv]
    rw [List.cons_append, List.map_cons, outcome, h, ih hmore]
    rfl

/-- A source with a text that is not JSON in one of its pieces fails there, whatever the
pointer and the filter make of the pieces before. -/
theorem outcome_sourceSteps_error {disk : Disk} {s : InputSettings} {source : Source × Bytes}
    {text : String} {good rest : List (Option Nat × String)} {bad : Option Nat × String}
    {e : ReadError} (htext : textOf disk source = .ok text)
    (hpieces : pieces s.ndjson text = good ++ bad :: rest)
    (hgood : ∀ p ∈ good, ∃ v, Json.ofText p.2 = .ok v) (hbad : Json.ofText bad.2 = .error e) :
    outcome (sourceSteps engine disk s source) = .error (.text source.1.label bad.1 e) := by
  have hparse : parseDocuments s.ndjson source.1.label text =
      .error (.text source.1.label bad.1 e) := by
    rw [parseDocuments_eq_outcome, hpieces, outcome_parsePiece_error hgood hbad]
  simp only [outcome_sourceSteps, htext, hparse, bind, Except.bind]

theorem loadWith_of_bad_piece {glob : String → Matches} {disk : Disk} {stdin : Bytes}
    {s : InputSettings} {sources : List Source} {before after : List (Source × Bytes)}
    {source : Source × Bytes} {documents : List Json} {text : String}
    {good rest : List (Option Nat × String)} {bad : Option Nat × String} {e : ReadError}
    (hsources : resolve glob s.inputs = .ok sources)
    (hdelivered : delivered stdin sources = before ++ source :: after)
    (hbefore : outcome (before.flatMap (sourceSteps engine disk s)) = .ok documents)
    (htext : textOf disk source = .ok text)
    (hpieces : pieces s.ndjson text = good ++ bad :: rest)
    (hgood : ∀ p ∈ good, ∃ v, Json.ofText p.2 = .ok v) (hbad : Json.ofText bad.2 = .error e) :
    loadWith engine glob disk stdin s = .error (.text source.1.label bad.1 e) := by
  have hsource : outcome (sourceSteps engine disk s source) =
      .error (.text source.1.label bad.1 e) :=
    outcome_sourceSteps_error htext hpieces hgood hbad
  have hload : loadSources engine disk s stdin sources =
      .error (.text source.1.label bad.1 e) := by
    rw [loadSources_eq_outcome, hdelivered, List.flatMap_append, List.flatMap_cons]
    exact outcome_ok_append hbefore (outcome_append_error hsource)
  rw [loadWith, hsources]
  exact hload

/-- Loading is the outcome of its steps in their order. An input that leads nowhere is
reported for the first such input, whatever the files and the standard input hold. A text
that is not JSON is reported before anything is selected from its source. -/
theorem load_first_failure (engine : Filter.Engine) (glob : String → Matches) (disk : Disk)
    (stdin : Bytes) (s : InputSettings) :
    (∀ documents, loadWith engine glob disk stdin s = .ok documents ↔ ∃ parts : List (List Json),
      loadSteps engine glob disk stdin s = parts.map .ok ∧ documents = parts.flatten) ∧
    (∀ e, loadWith engine glob disk stdin s = .error e ↔
      ∃ (parts : List (List Json)) (after : List (Except LoadError (List Json))),
        loadSteps engine glob disk stdin s = parts.map .ok ++ .error e :: after) ∧
    (∀ input e, resolveOne glob input = .error e ↔
      input ≠ "-" ∧ isPattern input ∧ LeadsNowhere glob input e) ∧
    (∀ before input after e, s.inputs = before ++ input :: after →
      (∀ i ∈ before, ∃ sources, resolveOne glob i = .ok sources) →
      resolveOne glob input = .error e →
      ∀ disk' stdin', loadWith engine glob disk' stdin' s = .error e) ∧
    (∀ disk', disk.SameTree disk' → Files.glob disk = Files.glob disk') ∧
    (∀ sources before source after documents text good bad rest e,
      resolve glob s.inputs = .ok sources →
      delivered stdin sources = before ++ source :: after →
      outcome (before.flatMap (sourceSteps engine disk s)) = .ok documents →
      textOf disk source = .ok text →
      pieces s.ndjson text = good ++ bad :: rest →
      (∀ p ∈ good, ∃ v, Json.ofText p.2 = .ok v) →
      Json.ofText bad.2 = .error e →
      loadWith engine glob disk stdin s = .error (.text source.1.label bad.1 e)) :=
  ⟨fun _ => loadWith_eq_ok_iff, fun _ => loadWith_eq_error_iff,
    fun _ _ => resolveOne_eq_error_iff,
    fun _ _ _ _ hs hbefore h => loadWith_of_unresolved hs hbefore h,
    fun _ h => glob_of_sameTree h,
    fun _ _ _ _ _ _ _ _ _ _ hsources hdelivered hbefore htext hpieces hgood hbad =>
      loadWith_of_bad_piece hsources hdelivered hbefore htext hpieces hgood hbad⟩

def lined : Disk :=
  ⟨[(["w"], .directory), (["w", "a.ndjson"], .file (Utf8.ofString "\x7b\x7d\n\n\x7bx\n"))], ["w"]⟩

/-- The pointer leads nowhere in the first line, but the third line is reported. -/
def pointing : InputSettings :=
  { ndjson := true, pointer := some "/x", inputs := ["a.ndjson"] }

theorem load_first_failure_lined :
    resolve (Files.glob lined) pointing.inputs = .ok [.path "a.ndjson"] ∧
      (∃ e, Json.ofText "\x7bx" = .error e ∧
        loadWith Filter.language (Files.glob lined) lined [] pointing =
          .error (.text "a.ndjson" (some 3) e)) := by
  obtain ⟨-, -, -, -, -, h⟩ :=
    load_first_failure Filter.language (Files.glob lined) lined [] pointing
  have hsources : resolve (Files.glob lined) pointing.inputs = .ok [.path "a.ndjson"] := rfl
  have htext : textOf lined (.path "a.ndjson", []) = .ok "\x7b\x7d\n\n\x7bx\n" := by rfl
  have hgood : Json.ofText "\x7b\x7d" = .ok (.object []) := by rfl
  have hbad : ∃ e, Json.ofText "\x7bx" = .error e := ⟨_, rfl⟩
  obtain ⟨e, he⟩ := hbad
  refine ⟨hsources, e, he, ?_⟩
  exact h [.path "a.ndjson"] [] (.path "a.ndjson", []) [] [] _ [(some 1, "\x7b\x7d")]
    (some 3, "\x7bx") [] e hsources rfl rfl htext rfl (by simp [hgood]) he

end SchemaByExample.Command
