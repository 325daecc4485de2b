import SchemaByExample.Proofs.Command.Answers
import SchemaByExample.Proofs.Command.Session
import SchemaByExample.Proofs.Json.Layout

/-! The text that a run puts out. Neither its layout nor its place changes what it says, and it
says what the answer for each document is. -/
namespace SchemaByExample.Command

open Files Json

/-! Answers in one value. Each is an object, and so an array can only stand for several. -/

def Objects (vs : List Json) : Prop := ∀ v ∈ vs, ∃ members, v = .object members

theorem objects_answers (p : Product) (documents : List Json) :
    Objects (documents.map (answer p)) :=
  List.forall_mem_map.mpr fun d _ => answer_object p d

theorem collapse_of_ne_one {vs : List Json} (h : vs.length ≠ 1) : collapse vs = .array vs := by
  rw [collapse.eq_def]
  split
  · exact absurd rfl h
  · rfl

/-- The number of answers shows in whether the value is an array. -/
theorem collapse_eq_array_iff {vs : List Json} (h : Objects vs) :
    (∃ items, collapse vs = .array items) ↔ vs.length ≠ 1 := by
  constructor
  · rintro ⟨items, hitems⟩ hone
    obtain ⟨v, rfl⟩ := List.length_eq_one_iff.mp hone
    obtain ⟨members, rfl⟩ := h v (List.mem_singleton_self v)
    cases hitems
  · exact fun hne => ⟨vs, collapse_of_ne_one hne⟩

theorem collapse_injective {vs ws : List Json} (hv : Objects vs) (hw : Objects ws)
    (h : collapse vs = collapse ws) : vs = ws := by
  have hiff := (collapse_eq_array_iff hv).symm.trans (h ▸ collapse_eq_array_iff hw)
  by_cases hone : vs.length = 1
  · have hone' : ws.length = 1 := Decidable.not_not.mp fun hne => hiff.mpr hne hone
    obtain ⟨v, rfl⟩ := List.length_eq_one_iff.mp hone
    obtain ⟨w, rfl⟩ := List.length_eq_one_iff.mp hone'
    exact congrArg (fun v => [v]) h
  · rw [collapse_of_ne_one hone, collapse_of_ne_one (hiff.mp hone)] at h
    exact Json.array.inj h

theorem distinct_collapse {vs : List Json} (h : ∀ v ∈ vs, v.Distinct) : (collapse vs).Distinct := by
  rw [collapse.eq_def]
  split
  · exact h _ (List.mem_singleton_self _)
  · exact distinctItems_iff.mpr h

theorem integral_collapse {vs : List Json} (h : ∀ v ∈ vs, v.Integral) : (collapse vs).Integral := by
  rw [collapse.eq_def]
  split
  · exact h _ (List.mem_singleton_self _)
  · exact integralItems_iff.mpr h

/-! The text. -/

/-- The text says what the answers are, in either layout. -/
theorem denotes_outputText (r : Request) {documents : List Json}
    (h : ∀ d ∈ documents, d.Distinct) :
    Denotes (outputText r documents).toList (collapse (documents.map (answer r.product))) := by
  have hd := distinct_collapse (List.forall_mem_map.mpr fun d hd =>
    distinct_answer r.product (h d hd))
  have hi := integral_collapse (List.forall_mem_map.mpr fun d hd =>
    integral_answer r.product (h d hd))
  simp only [outputText]
  split
  · rw [Json.compact, String.toList_ofList]
    exact denotes_render blank_compact hd hi
  · rw [Json.pretty, String.toList_ofList]
    exact denotes_render blank_pretty hd hi

/-- Runs with different answers put out different texts. -/
theorem answers_of_outputText {r r' : Request} {documents documents' : List Json}
    (hd : ∀ d ∈ documents, d.Distinct) (hd' : ∀ d ∈ documents', d.Distinct)
    (h : outputText r documents = outputText r' documents') :
    documents.map (answer r.product) = documents'.map (answer r'.product) := by
  have htext := denotes_outputText r hd
  rw [h] at htext
  exact collapse_injective (objects_answers _ _) (objects_answers _ _)
    (eq_of_denotes htext (denotes_outputText r' hd'))

/-! Runs. -/

variable {engine : Filter.Engine} {disk : Disk} {stdin : Bytes} {r : Request}
  {documents : List Json}

theorem runRequest_printed (hnoOp : r.noOp = false)
    (hload : load engine disk stdin r.input = .ok documents) (hout : r.out = none) :
    runRequest engine disk stdin r = (⟨0, outputText r documents ++ "\n", ""⟩, disk) := by
  simp only [runRequest, hnoOp, Bool.false_eq_true, if_false, hload, hout]

/-- What a text says about the answers that it is put out for: it denotes one value, which is
an array unless there is one answer, and then holds them in order. -/
structure Tells (text : String) (answers : List Json) : Prop where
  denotes : ∀ v, Denotes text.toList v ↔ v = collapse answers
  array : (∃ items, Denotes text.toList (.array items)) ↔ answers.length ≠ 1
  items : ∀ items, Denotes text.toList (.array items) → items = answers
  single : ∀ a, answers = [a] → Denotes text.toList a

theorem tells_outputText (r : Request) (h : ∀ d ∈ documents, d.Distinct) :
    Tells (outputText r documents) (documents.map (answer r.product)) := by
  have htext := denotes_outputText r h
  have hiff (v : Json) : Denotes (outputText r documents).toList v ↔
      v = collapse (documents.map (answer r.product)) :=
    ⟨fun hv => eq_of_denotes hv htext, fun hv => hv ▸ htext⟩
  have harray := collapse_eq_array_iff (objects_answers r.product documents)
  refine ⟨hiff, ?_, fun items hitems => ?_, fun a ha => ?_⟩
  · rw [← harray]
    exact exists_congr fun items => (hiff _).trans eq_comm
  · have hcollapse := (hiff _).mp hitems
    rw [collapse_of_ne_one (harray.mp ⟨items, hcollapse.symm⟩)] at hcollapse
    exact Json.array.inj hcollapse
  · rw [hiff, ha]
    rfl

/-- Of one request four runs are made, which print or write the answers in compact or in
pretty layout. What is written is what is printed but for the last line feed; the compact text
is one line, and the pretty text without the white space between tokens; and either tells the
answer for each document, so that no run with other answers prints it. -/
theorem run_output {path : String} {printing writing : Bool → List String}
    (hprinting : ∀ c, parse (printing c) = .request { r with compact := c, out := none })
    (hwriting : ∀ c, parse (writing c) = .request { r with compact := c, out := some path })
    (hnoOp : r.noOp = false) (hload : load engine disk stdin r.input = .ok documents)
    (hpath : Writable disk path) :
    ∃ text : Bool → String,
      (∀ c, runWith engine disk stdin (printing c) = (⟨0, text c ++ "\n", ""⟩, disk) ∧
        ∃ after, runWith engine disk stdin (writing c) = (⟨0, "", ""⟩, after) ∧
          after.read path = .ok (Utf8.ofString (text c))) ∧
      ('\n' ∉ (text true).toList ∧ '\r' ∉ (text true).toList ∧
        squeeze .outside (text false).toList = (text true).toList) ∧
      (∀ c, Tells (text c) (documents.map (answer r.product))) ∧
      ∀ disk' stdin' arguments r' documents', parse arguments = .request r' →
        r'.noOp = false → r'.out = none → load engine disk' stdin' r'.input = .ok documents' →
        (∃ c, (runWith engine disk' stdin' arguments).1.stdout = text c ++ "\n") →
          documents'.map (answer r'.product) = documents.map (answer r.product) := by
  have hdistinct := distinct_of_load hload
  refine ⟨fun c => outputText { r with compact := c } documents, fun c => ⟨?_, ?_⟩, ⟨?_, ?_, ?_⟩,
    fun c => tells_outputText { r with compact := c } hdistinct, ?_⟩
  · rw [runWith, hprinting c]
    exact runRequest_printed (r := { r with compact := c, out := none }) hnoOp hload rfl
  · obtain ⟨after, hafter, hread⟩ := runWith_written (hwriting c) hnoOp hload rfl hpath
    exact ⟨after, hafter, hread⟩
  · exact lineFeed_notMem_compact _
  · exact return_notMem_compact _
  · exact squeeze_pretty (collapse (documents.map (answer r.product)))
  · rintro disk' stdin' arguments r' documents' hparse hnoOp' hout' hload' ⟨c, hstdout⟩
    rw [runWith, hparse] at hstdout
    simp only [runRequest_printed hnoOp' hload' hout'] at hstdout
    have htext : outputText r' documents' = outputText { r with compact := c } documents :=
      (String.append_left_inj _).mp hstdout
    exact (answers_of_outputText (distinct_of_load hload') hdistinct htext :)

def asking (compact : Bool) (more : List String) : List String :=
  ["shape", "-i", "a.json", "b.json"] ++ (if compact then ["--compact"] else []) ++ more

theorem run_output_tray :
    load Filter.language tray [] { inputs := ["a.json", "b.json"] } = .ok [note, .array []] ∧
      Writable tray "new/b.json" ∧
      ∃ text after, run tray [] (asking true []) = (⟨0, text ++ "\n", ""⟩, tray) ∧
        run tray [] (asking true ["-o", "new/b.json"]) = (⟨0, "", ""⟩, after) ∧
        after.read "new/b.json" = .ok (Utf8.ofString text) ∧
        Denotes text.toList (.array [answer .shape note, answer .shape (.array [])]) := by
  have hload : load Filter.language tray [] { inputs := ["a.json", "b.json"] } =
      .ok [note, .array []] := load_files Filter.language holds_served integral_served []
  have hpath : Writable tray "new/b.json" := by
    unfold Writable
    decide +kernel
  have hprinting (c : Bool) : parse (asking c []) =
      .request
        { product := .shape, input := { inputs := ["a.json", "b.json"] }, compact := c } := by
    cases c <;> rfl
  have hwriting (c : Bool) : parse (asking c ["-o", "new/b.json"]) =
      .request { product := .shape, input := { inputs := ["a.json", "b.json"] }, compact := c,
                 out := some "new/b.json" } := by
    cases c <;> rfl
  obtain ⟨text, hruns, -, htells, -⟩ :=
    run_output (r := { product := .shape, input := { inputs := ["a.json", "b.json"] } })
      hprinting hwriting rfl hload hpath
  obtain ⟨hprinted, after, hwritten, hread⟩ := hruns true
  exact ⟨hload, hpath, text true, after, hprinted, hwritten, hread,
    ((htells true).denotes _).mpr rfl⟩

end SchemaByExample.Command
