import SchemaByExample.Proofs.Command.Answers
import SchemaByExample.Proofs.Command.Listing
import SchemaByExample.Proofs.Files.Growth

/-! Runs one after the other on a disk, with any engine for their filters. A run changes nothing
before it writes, and then it writes one file; on the way it may make the directories above that
file. -/
namespace SchemaByExample.Command

open Files

structure Step where
  before : Disk
  stdin : Bytes
  arguments : List String
  outcome : Outcome
  after : Disk

section Engine

variable (engine : Filter.Engine)

def session (disk : Disk) : List (Bytes × List String) → List Step
  | [] => []
  | (stdin, arguments) :: rest =>
    let (outcome, after) := runWith engine disk stdin arguments
    ⟨disk, stdin, arguments, outcome, after⟩ :: session after rest

theorem session_cons {disk after : Disk} {stdin : Bytes} {arguments : List String}
    {outcome : Outcome} (h : runWith engine disk stdin arguments = (outcome, after))
    (rest : List (Bytes × List String)) :
    session engine disk ((stdin, arguments) :: rest) =
      ⟨disk, stdin, arguments, outcome, after⟩ :: session engine after rest := by
  rw [session, h]

def finalDisk (disk : Disk) : List (Bytes × List String) → Disk
  | [] => disk
  | (stdin, arguments) :: rest => finalDisk (runWith engine disk stdin arguments).2 rest

end Engine

/-- A place is as it was, or a directory was missing there and is made, above the output. -/
def Spared (before after : Disk) (out : String) (l : Location) : Prop :=
  after.lookup l = before.lookup l ∨
    before.lookup l = none ∧ after.lookup l = some .directory ∧
      ∃ p, Above p out ∧ after.locate p = .ok l

structure Wrote (before after : Disk) (out text : String) : Prop where
  file : ∃ here, after.locate out = .ok here ∧ before.lookup here ≠ some .directory ∧
    after.lookup here = some (.file (Utf8.ofString text)) ∧
    ∀ l, l ≠ here → Spared before after out l

/-- What a run for a request does to the disk and the standard output, by how far it comes. -/
structure Atomic (engine : Filter.Engine) (r : Request) (s : Step) : Prop where
  noOp : r.noOp = true → s.outcome.status = 0 ∧ s.outcome.stdout = "" ∧ s.after = s.before
  unloaded : r.noOp = false → ∀ e, load engine s.before s.stdin r.input = .error e →
    s.outcome.status = 1 ∧ s.outcome.stdout = "" ∧ s.after = s.before
  printed : r.noOp = false → ∀ documents,
    load engine s.before s.stdin r.input = .ok documents → r.out = none →
      s.outcome.status = 0 ∧ s.outcome.stdout = outputText r documents ++ "\n" ∧
        s.after = s.before
  written : r.noOp = false → ∀ documents,
    load engine s.before s.stdin r.input = .ok documents →
    ∀ out, r.out = some out → s.outcome.stdout = "" ∧
      (s.outcome.status = 0 ∧ Wrote s.before s.after out (outputText r documents) ∨
        s.outcome.status = 1 ∧ ∀ l, Spared s.before s.after out l)

theorem wrote_of_write {before disk after : Disk} {out text : String}
    (hdirs : Disk.Adds (Above · out) before disk)
    (h : disk.write out (Utf8.ofString text) = .ok after) : Wrote before after out text := by
  obtain ⟨here, hlocate, hfile, rfl⟩ := Disk.write_eq_ok h
  have hne : here ≠ [] := by
    rintro rfl
    exact hfile (Disk.lookup_nil disk)
  have hput := Disk.lookup_put hne disk (.file (Utf8.ofString text))
  have hkeeps : Disk.Keeps disk (disk.put here (.file (Utf8.ofString text))) := by
    refine ⟨Disk.home_put .., fun l hl => ?_⟩
    have hl' : l ≠ here := by
      rintro rfl
      exact hfile hl
    rw [hput, if_neg hl', hl]
  refine ⟨here, hkeeps.locate hlocate, fun hdir => hfile (hdirs.keeps.directory hdir), ?_, ?_⟩
  · rw [hput, if_pos rfl]
  · intro l hl
    obtain heq | ⟨hnone, hmade, p, hp, hlp⟩ := hdirs.made l
    · exact .inl (by rw [hput, if_neg hl, heq])
    · exact .inr ⟨hnone, by rw [hput, if_neg hl, hmade], p, hp, hkeeps.locate hlp⟩

def Spares (before : Disk) (out text : String) (result : Outcome × Disk) : Prop :=
  result.1.stdout = "" ∧
    (result.1.status = 0 ∧ Wrote before result.2 out text ∨
      result.1.status = 1 ∧ ∀ l, Spared before result.2 out l)

/-- Once the directories are there, all hangs on the file. -/
theorem spares_of_adds {before disk : Disk} {out text : String} {result : Outcome × Disk}
    (hdirs : Disk.Adds (Above · out) before disk)
    (hok : ∀ d, disk.write out (Utf8.ofString text) = .ok d → result = (⟨0, "", ""⟩, d))
    (herror : ∀ e, disk.write out (Utf8.ofString text) = .error e →
      result = (failed (.write out e), disk)) : Spares before out text result := by
  cases hw : disk.write out (Utf8.ofString text) with
  | ok d =>
    rw [hok d hw]
    exact ⟨rfl, .inl ⟨rfl, wrote_of_write hdirs hw⟩⟩
  | error e =>
    rw [herror e hw]
    exact ⟨rfl, .inr ⟨rfl, hdirs.made⟩⟩

theorem writeOut_spares (disk : Disk) (out text : String) :
    Spares disk out text (writeOut disk out text) := by
  cases hp : parent? out with
  | none =>
    exact spares_of_adds (.refl _ disk) (fun d hw => by simp only [writeOut, hp, hw])
      fun e hw => by simp only [writeOut, hp, hw]
  | some p =>
    have hdirs : Disk.Adds (Above · out) disk (made (makeDirectories (p.length + 1) p disk)) :=
      adds_above hp (adds_makeDirectories (p.length + 1) p disk)
    cases hmade : makeDirectories (p.length + 1) p disk with
    | ok d =>
      rw [hmade, made] at hdirs
      exact spares_of_adds hdirs (fun d' hw => by simp only [writeOut, hp, hmade, hw])
        fun e hw => by simp only [writeOut, hp, hmade, hw]
    | error x =>
      rw [hmade] at hdirs
      have h : writeOut disk out text = (failed (.create p x.1), x.2) := by
        simp only [writeOut, hp, hmade]
      rw [h]
      exact ⟨rfl, .inr ⟨rfl, hdirs.made⟩⟩

def Writable (disk : Disk) (path : String) : Prop := (writeOut disk path "").1.status = 0

/-- Whether a file can be written does not depend on what is written to it. -/
theorem exists_write {disk after : Disk} {path : String} {content : Bytes}
    (h : disk.write path content = .ok after) (content' : Bytes) :
    ∃ after', disk.write path content' = .ok after' := by
  rw [Disk.write] at h ⊢
  split
  · rename_i hslash
    rw [if_pos hslash] at h
    simp only [bind, Except.bind] at h
    split at h <;> cases h
  · rename_i hslash
    rw [if_neg hslash] at h
    cases hlocate : disk.locate path with
    | error e =>
      rw [hlocate] at h
      cases h
    | ok here =>
      simp only [hlocate, bind, Except.bind] at h ⊢
      split at h
      · cases h
      · exact ⟨_, rfl⟩

theorem exists_write_of_status {disk : Disk} {path : String}
    (h : (match disk.write path (Utf8.ofString "") with
      | .ok d => ((⟨0, "", ""⟩ : Outcome), d)
      | .error e => (failed (.write path e), disk)).1.status = 0) (text : String) :
    ∃ after, disk.write path (Utf8.ofString text) = .ok after := by
  cases hempty : disk.write path (Utf8.ofString "") with
  | error e =>
    rw [hempty] at h
    cases h
  | ok after => exact exists_write hempty _

theorem exists_writeOut {disk : Disk} {path : String} (h : Writable disk path) (text : String) :
    ∃ after, writeOut disk path text = (⟨0, "", ""⟩, after) := by
  rw [Writable, writeOut] at h
  rw [writeOut]
  cases hp : parent? path with
  | none =>
    simp only [hp] at h ⊢
    obtain ⟨after, hafter⟩ := exists_write_of_status h text
    exact ⟨after, by rw [hafter]⟩
  | some p =>
    cases hmade : makeDirectories (p.length + 1) p disk with
    | error x =>
      simp only [hp, hmade] at h
      cases h
    | ok d =>
      simp only [hp, hmade] at h ⊢
      obtain ⟨after, hafter⟩ := exists_write_of_status h text
      exact ⟨after, by rw [hafter]⟩

theorem Wrote.read {before after : Disk} {out text : String} (h : Wrote before after out text) :
    after.read out = .ok (Utf8.ofString text) := by
  obtain ⟨here, hlocate, -, hfile, -⟩ := h.file
  simp only [Disk.read, Disk.stat, hlocate, hfile, bind, Except.bind]

theorem exists_writeOut_read {disk : Disk} {path : String} (h : Writable disk path)
    (text : String) :
    ∃ after, writeOut disk path text = (⟨0, "", ""⟩, after) ∧
      after.read path = .ok (Utf8.ofString text) := by
  obtain ⟨after, hafter⟩ := exists_writeOut h text
  have hspares := writeOut_spares disk path text
  rw [hafter] at hspares
  obtain ⟨-, ⟨-, hwrote⟩ | ⟨hone, -⟩⟩ := hspares
  · exact ⟨after, hafter, hwrote.read⟩
  · cases hone

theorem runWith_written {engine : Filter.Engine} {disk : Disk} {stdin : Bytes} {r : Request}
    {documents : List Json} {arguments : List String} {path : String}
    (hparse : parse arguments = .request r) (hnoOp : r.noOp = false)
    (hload : load engine disk stdin r.input = .ok documents) (hout : r.out = some path)
    (hpath : Writable disk path) :
    ∃ after, runWith engine disk stdin arguments = (⟨0, "", ""⟩, after) ∧
      after.read path = .ok (Utf8.ofString (outputText r documents)) := by
  simp only [runWith, hparse, runRequest, hnoOp, Bool.false_eq_true, if_false, hload, hout]
  exact exists_writeOut_read hpath (outputText r documents)

theorem atomic_runRequest (engine : Filter.Engine) (disk : Disk) (stdin : Bytes)
    (arguments : List String) (r : Request) :
    Atomic engine r ⟨disk, stdin, arguments, (runRequest engine disk stdin r).1,
      (runRequest engine disk stdin r).2⟩ := by
  constructor
  · intro h
    simp only [runRequest, h, if_true, and_self]
  · intro h e he
    simp only at he
    simp only [runRequest, h, Bool.false_eq_true, if_false, he, failed, and_self]
  · intro h documents hdocuments hout
    simp only at hdocuments
    simp only [runRequest, h, Bool.false_eq_true, if_false, hdocuments, hout, and_self]
  · intro h documents hdocuments out hout
    simp only at hdocuments
    simp only [runRequest, h, Bool.false_eq_true, if_false, hdocuments, hout]
    exact writeOut_spares disk out (outputText r documents)

/-- Whether an output of the run leads to the place, or a directory above the output does. -/
def Touches (s : Step) (l : Location) : Prop :=
  ∃ r out p, parse s.arguments = .request r ∧ r.out = some out ∧ (p = out ∨ Above p out) ∧
    s.after.locate p = .ok l

theorem Spared.unchanged {before after : Disk} {out : String} {l : Location}
    (h : Spared before after out l) (ha : ∀ p, Above p out → after.locate p ≠ .ok l) :
    after.lookup l = before.lookup l :=
  h.resolve_right fun ⟨_, _, p, hp, hl⟩ => ha p hp hl

/-- A run leaves a place alone that it does not touch. -/
theorem Atomic.unchanged {engine : Filter.Engine} {r : Request} {s : Step} (h : Atomic engine r s)
    (hr : parse s.arguments = .request r) {l : Location} (hl : ¬Touches s l) :
    s.after.lookup l = s.before.lookup l := by
  cases hnoOp : r.noOp with
  | true => rw [(h.noOp hnoOp).2.2]
  | false =>
    cases hload : load engine s.before s.stdin r.input with
    | error e => rw [(h.unloaded hnoOp e hload).2.2]
    | ok documents =>
      cases hout : r.out with
      | none => rw [(h.printed hnoOp documents hload hout).2.2]
      | some out =>
        have habove : ∀ p, Above p out → s.after.locate p ≠ .ok l :=
          fun p hp hlocate => hl ⟨r, out, p, hr, hout, .inr hp, hlocate⟩
        obtain ⟨-, ⟨-, here, hlocate, -, -, hspared⟩ | ⟨-, hspared⟩⟩ :=
          h.written hnoOp documents hload out hout
        · have hne : l ≠ here := by
            rintro rfl
            exact hl ⟨r, out, out, hr, hout, .inl rfl, hlocate⟩
          exact (hspared l hne).unchanged habove
        · exact (hspared l).unchanged habove

/-- A session of requests is atomic in each of its runs, and what no run touches stays as it
was from the first run to the last. -/
theorem session_atomic (engine : Filter.Engine) (disk : Disk) (runs : List (Bytes × List String))
    (h : ∀ i ∈ runs, ∃ r, parse i.2 = .request r) :
    (∀ s ∈ session engine disk runs,
      ∃ r, parse s.arguments = .request r ∧ Atomic engine r s) ∧
      ∀ l, (∀ s ∈ session engine disk runs, ¬Touches s l) →
        (finalDisk engine disk runs).lookup l = disk.lookup l := by
  induction runs generalizing disk with
  | nil => exact ⟨by simp [session], fun _ _ => rfl⟩
  | cons i rest ih =>
    obtain ⟨stdin, arguments⟩ := i
    obtain ⟨⟨r, hr⟩, hrest⟩ := List.forall_mem_cons.mp h
    have hrun : runWith engine disk stdin arguments = runRequest engine disk stdin r := by
      simp only at hr
      rw [runWith, hr]
    have hstep : Atomic engine r ⟨disk, stdin, arguments, (runWith engine disk stdin arguments).1,
        (runWith engine disk stdin arguments).2⟩ := by
      rw [hrun]
      exact atomic_runRequest engine disk stdin arguments r
    obtain ⟨hsteps, hkept⟩ := ih (runWith engine disk stdin arguments).2 hrest
    refine ⟨List.forall_mem_cons.mpr ⟨⟨r, hr, hstep⟩, hsteps⟩, fun l hl => ?_⟩
    obtain ⟨hfirst, hlater⟩ := List.forall_mem_cons.mp hl
    exact (hkept l hlater).trans (hstep.unchanged hr hfirst)

theorem outputText_compact {r : Request} (h : r.compact = true) (v : Json) :
    outputText r [v] = (answer r.product v).compact := if_pos h

theorem outputText_pretty {r : Request} (h : r.compact = false) (v : Json) :
    outputText r [v] = (answer r.product v).pretty := if_neg (ne_true_of_eq_false h)

def fed : Json := .array [.natural 7, .object []]

def shelf : Disk :=
  ⟨[(["w"], .directory), (["w", "a.json"], .file (Utf8.ofString fed.pretty))], ["w"]⟩

theorem load_shelf : load Filter.language shelf [] { inputs := ["*.json"] } = .ok [fed] := by
  have hfound : resolve (glob shelf) ["*.json"] = .ok [.path "a.json"] :=
    eq_ok_of_toOption (by decide +kernel)
  have hfile : ∀ p ∈ [("a.json", fed)], Holds shelf p.1 p.2 := List.forall_mem_singleton.mpr
    ⟨⟨by decide, by decide⟩, ⟨fed.pretty, by simp, by decide +kernel⟩, by decide, by decide⟩
  have hintegral : ∀ p ∈ [("a.json", fed)], p.2.Integral :=
    List.forall_mem_singleton.mpr ⟨trivial, trivial, trivial⟩
  exact load_resolved Filter.language hfound hfile hintegral []

/-- A run whose output is matched by its own input, and one that reads what it wrote and makes
directories. -/
def feeding : List (Bytes × List String) :=
  [([], ["schema", "-i", "*.json", "--compact", "-o", "a.json"]),
    ([], ["shape", "-i", "a.json", "-o", "new/../more/b.json"])]

theorem session_atomic_feeding :
    (∀ i ∈ feeding, ∃ r, parse i.2 = .request r) ∧
      (∀ s ∈ session Filter.language shelf feeding,
        ∃ r, parse s.arguments = .request r ∧ Atomic Filter.language r s) ∧
      ∃ d d', (session Filter.language shelf feeding).map (fun s => (s.outcome, s.after)) =
          [(⟨0, "", ""⟩, d), (⟨0, "", ""⟩, d')] ∧
        d.read "a.json" = .ok (Utf8.ofString (answer .schema fed).compact) ∧
        d'.read "new/../more/b.json" =
          .ok (Utf8.ofString (answer .shape (answer .schema fed)).pretty) := by
  have hparse : parse ["schema", "-i", "*.json", "--compact", "-o", "a.json"] =
      .request { product := .schema, input := { inputs := ["*.json"] }, compact := true,
                 out := some "a.json" } := rfl
  have hparse2 : parse ["shape", "-i", "a.json", "-o", "new/../more/b.json"] =
      .request { product := .shape, input := { inputs := ["a.json"] },
                 out := some "new/../more/b.json" } := rfl
  have h : ∀ i ∈ feeding, ∃ r, parse i.2 = .request r := by
    simp only [feeding, List.forall_mem_cons]
    exact ⟨⟨_, hparse⟩, ⟨_, hparse2⟩, by simp⟩
  have hfirst : Writable shelf "a.json" := by
    unfold Writable
    decide +kernel
  obtain ⟨d, hrun, hread⟩ := runWith_written hparse rfl load_shelf rfl hfirst
  rw [outputText_compact rfl] at hread
  have hholds : Holds d "a.json" (answer .schema fed) :=
    ⟨⟨by decide, by decide⟩, ⟨_, by simp, hread⟩, by decide +kernel, by decide +kernel⟩
  have hload2 : load Filter.language d [] { inputs := ["a.json"] } = .ok [answer .schema fed] :=
    load_file Filter.language hholds (integral_answer .schema (by decide)) []
  have hd : d = (runWith Filter.language shelf []
      ["schema", "-i", "*.json", "--compact", "-o", "a.json"]).2 := by rw [hrun]
  have hsecond : Writable d "new/../more/b.json" := by
    rw [hd]
    unfold Writable
    decide +kernel
  obtain ⟨d', hrun2, hread2⟩ := runWith_written hparse2 rfl hload2 rfl hsecond
  rw [outputText_pretty rfl] at hread2
  refine ⟨h, (session_atomic Filter.language shelf feeding h).1, d, d', ?_, hread, hread2⟩
  rw [feeding, session_cons _ hrun, session_cons _ hrun2]
  rfl

end SchemaByExample.Command
