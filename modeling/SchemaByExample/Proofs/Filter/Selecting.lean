import Mathlib
import SchemaByExample.Filter.Run
import SchemaByExample.Proofs.Filter.Parsing
import SchemaByExample.Proofs.Filter.Printing
import SchemaByExample.Proofs.Json.CompactText
import SchemaByExample.Proofs.Json.Meaning

/-! Filters that are written for paths, run on documents. The steps lead from the value of a
document to the value of the part that the path leads to, and that part is the only output; it
is what the pointer for the path names. -/
namespace SchemaByExample

namespace Json

theorem StepsTo.depth_lt {s : Step} {v u : Json} (h : StepsTo s v u) : u.depth < v.depth := by
  cases h with
  | member hu =>
    exact Nat.lt_succ_of_le (depthMembers_le_iff.mp (Nat.le_refl _) _ (Members.mem_of_find? hu))
  | item hu =>
    exact Nat.lt_succ_of_le (depthItems_le_iff.mp (Nat.le_refl _) _ (List.mem_of_getElem? hu))

theorem depth_at?_le {path : List Step} {v w : Json} (h : at? path v = some w) :
    w.depth ≤ v.depth := by
  induction path generalizing v with
  | nil =>
    cases h
    exact Nat.le_refl _
  | cons s path ih =>
    obtain ⟨u, hu, hw⟩ := exists_stepsTo h
    exact Nat.le_trans (ih hw) (Nat.le_of_lt hu.depth_lt)

end Json

namespace Filter

open Json Eval

/-- A signed word holds the places in the path. No array in memory has places beyond that. -/
def Placed (path : List Json.Step) : Prop :=
  ∀ i, Json.Step.item i ∈ path → (i : Int) ≤ Value.greatestInt

namespace Placed

variable {path : List Json.Step}

theorem toInt_ofNat (h : Placed path) {i : Nat} (hi : .item i ∈ path) :
    (Int64.ofNat i).toInt = i := by
  have hle := h i hi
  rw [Value.greatestInt] at hle
  exact Int64.toInt_ofNat_of_lt (by omega)

theorem rest {s : Json.Step} (h : Placed (s :: path)) : Placed path :=
  fun i hi => h i (List.mem_cons_of_mem s hi)

end Placed

namespace Value

theorem ofItems_eq_map (items : List Json) : ofItems items = items.map ofJson := by
  induction items with
  | nil => rfl
  | cons v rest ih => rw [ofItems, ih, List.map_cons]

theorem ofMembers_eq_map (members : List (String × Json)) :
    ofMembers members = members.map fun p => (p.1, ofJson p.2) := by
  induction members with
  | nil => rfl
  | cons p rest ih => rw [ofMembers, ih, List.map_cons]

def ofKey : Json.Step → Value
  | .member k => .string k
  | .item i => .ofNat i

/-- A key has the value of the part that the step leads to. -/
theorem part_ofJson {path : List Json.Step} (hplaced : Placed path) {s : Json.Step}
    (hs : s ∈ path) {v u : Json} (h : StepsTo s v u) :
    Selector.part (ofJson v) (ofKey s) = .ok (ofJson u) := by
  cases h with
  | @member k members u hu =>
    have hfind : Members.find? k (ofMembers members) = some (ofJson u) := by
      rw [ofMembers_eq_map, Members.find?_map, hu, Option.map_some]
    rw [ofJson, ofKey, Selector.part, hfind, Option.getD_some]
  | @item i items u hu =>
    obtain ⟨hlt, -⟩ := List.getElem?_eq_some_iff.mp hu
    have hposition : position? i (ofItems items).length = some i := by
      have hnonneg : ¬(i : Int) < 0 := by omega
      rw [ofItems_eq_map, List.length_map]
      simp only [position?, if_neg hnonneg]
      rw [if_pos ⟨by omega, by omega⟩, Int.toNat_natCast]
    have hitem : (ofItems items)[i]? = some (ofJson u) := by
      rw [ofItems_eq_map, List.getElem?_map, hu, Option.map_some]
    rw [ofJson, ofKey, ofNat, Selector.part, hplaced.toInt_ofNat hs, hposition, Option.bind_some,
      hitem, Option.getD_some]

end Value

/-- The digits of a place are read as an integer. -/
theorem literal_toDigits {i : Nat} (h : (i : Int) ≤ Value.greatestInt) :
    literal (String.ofList (Nat.toDigits 10 i)) = .ofNat i := by
  have hdigits : (Nat.toDigits 10 i).all Char.isDigit = true :=
    List.all_eq_true.mpr fun c => Literal.isDigit_of_mem
  have hnumber : (String.ofList (Nat.toDigits 10 i)).toNat? = some i := by
    rw [← Nat.repr_eq_ofList_toDigits, Nat.toNat?_repr]
  have hlow : Value.leastInt ≤ (i : Int) := by
    rw [Value.leastInt]
    omega
  rw [literal, String.toList_ofList, if_pos hdigits, JsonText.ofDigits, hnumber, Value.ofNat,
    ← Int64.ofInt_eq_ofNat]
  exact if_pos ⟨hlow, h⟩

/-- A string without terms in it is its text, whatever the input. -/
theorem textOf_textPieces (run : Term → Outputs Value) (write : Value → Outputs Value)
    (cs : List Char) :
    textOf run write (textPieces .text cs) = .just (.string (String.ofList cs)) := by
  cases cs <;> rfl

section Evaluation

variable {path : List Json.Step} (fuel : Nat) (env : Env) (labels : Nat) (x : Value)

theorem eval_ofKey (h : Placed path) {s : Json.Step} (hs : s ∈ path) :
    eval (fuel + 1) env labels (Term.ofKey s) x = .just (Value.ofKey s) := by
  cases s with
  | member k =>
    rw [Term.ofKey, eval, Value.ofKey, textOf_textPieces, String.ofList_toList]
  | item i =>
    rw [Term.ofKey, eval, Value.ofKey, literal_toDigits (h i hs)]

def selectorsOf (path : List Json.Step) : List (Selector × Bool) :=
  path.map fun s => (.key (Value.ofKey s), false)

theorem selectors_ofKey {run : Term → Outputs Value}
    (h : ∀ s ∈ path, run (Term.ofKey s) = .just (Value.ofKey s)) :
    selectors run (path.map Step.ofKey) = .just (selectorsOf path) := by
  induction path with
  | nil => rfl
  | cons s path ih =>
    obtain ⟨hs, hpath⟩ := List.forall_mem_cons.mp h
    rw [List.map_cons, Step.ofKey, selectors, hs, ih hpath]
    rfl

theorem follow_ofJson (hplaced : Placed path) {v w : Json} (h : at? path v = some w) :
    follow (selectorsOf path) (.ofJson v) = .just (.ofJson w) := by
  induction path generalizing v with
  | nil =>
    cases h
    rfl
  | cons s path ih =>
    obtain ⟨u, hu, hw⟩ := exists_stepsTo h
    have hparts : (Selector.key (Value.ofKey s)).parts (.ofJson v) = .ok [.ofJson u] := by
      rw [Selector.parts, Value.part_ofJson hplaced List.mem_cons_self hu]
      rfl
    rw [selectorsOf, List.map_cons, follow, hparts]
    exact ih hplaced.rest hw

theorem eval_ofPath (hplaced : Placed path) {v w : Json} (h : at? path v = some w) :
    eval (fuel + 2) env labels (Term.ofPath path) (.ofJson v) = .just (.ofJson w) := by
  have hsteps : selectors (fun t => eval (fuel + 1) env labels t (.ofJson v))
      (path.map Step.ofKey) = .just (selectorsOf path) :=
    selectors_ofKey fun s hs => eval_ofKey fuel env labels _ hplaced hs
  cases path with
  | nil =>
    cases h
    rfl
  | cons s path =>
    have hterm : Term.ofPath (s :: path) = .path .identity ((s :: path).map Step.ofKey) := rfl
    rw [hterm, eval, hsteps]
    exact follow_ofJson hplaced h

end Evaluation

/-- Nothing in the term for a path has to be defined. -/
theorem undefined_ofPath (scope : Scope) (path : List Json.Step) :
    (Term.ofPath path).undefined scope = [] := by
  have hkey (s : Json.Step) : (Term.ofKey s).undefined scope = [] := by
    cases s with
    | member k =>
      rw [Term.ofKey]
      cases k.toList <;> rfl
    | item i => rfl
  have hsteps : Step.undefined scope (path.map Step.ofKey) = [] := by
    induction path with
    | nil => rfl
    | cons s path ih => rw [List.map_cons, Step.ofKey, Step.undefined, hkey, ih, List.append_nil]
  cases path with
  | nil => rfl
  | cons s path => exact hsteps

theorem length_le_ofPath (path : List Json.Step) : path.length ≤ (ofPath path).length := by
  have hbrackets : path.length ≤ (path.flatMap bracketChars).length := by
    induction path with
    | nil => exact Nat.zero_le _
    | cons s path ih =>
      rw [List.flatMap_cons, List.length_append, List.length_cons, bracketChars, List.length_cons]
      omega
  rw [ofPath, String.length_ofList, List.length_cons]
  omega

/-- The filter for a path is a term that can be run. -/
theorem ofText_ofPath (path : List Json.Step) :
    Term.ofText (ofPath path) = .ok (Term.ofPath path) := by
  have hlength := length_le_ofPath path
  have hread : Grammar.run (Grammar.whole (8 * (ofPath path).length + 16))
      (.symbol "." :: path.map Token.ofBracket) = .ok ([], Term.ofPath path) := by
    rw [Grammar.run, Grammar.takes_whole path (by omega) []]
    rfl
  rw [Term.ofText, Token.ofText_ofPath]
  simp only [Except.mapError, bind, Except.bind, hread, undefined_ofPath]
  rfl

theorem documents_just {v : Json} (hd : v.Distinct) (hdepth : v.depth ≤ maxDepth)
    (hback : v.ReadsBack) : documents (.just (.ofJson v)) = .ok [v] := by
  rw [documents, Outputs.just, Stream.fold]
  simp only [Except.mapError, bind, Except.bind, Value.ofText_text_ofJson hd hdepth hback]
  rfl

/-- The filter for a path gives the part of the document that the path leads to, and nothing
else. -/
theorem run_ofPath {path : List Json.Step} {v w : Json} (hd : v.Distinct)
    (hdepth : v.depth ≤ maxDepth) (hw : at? path v = some w) (hback : w.ReadsBack)
    (hplaced : Placed path) : run (ofPath path) v = .ok [w] := by
  have hdistinct : w.Distinct := Pointer.distinct_resolve (Pointer.resolve_ofPath hw) hd
  have houtputs : (Term.ofPath path).outputs (.ofJson v) = .just (.ofJson w) :=
    eval_ofPath (maxSteps - 2) Env.base 0 hplaced hw
  rw [run, runWith, language, ofText_ofPath]
  simp only [bind, Except.bind, pure, Except.pure, houtputs]
  exact documents_just hdistinct (Nat.le_trans (depth_at?_le hw) hdepth) hback

/-- Whatever a path leads to is what its pointer names, and the only output of its filter. The
filter of a dot gives the document itself. -/
theorem selectors_agree (v : Json) (hd : v.Distinct) (hdepth : v.depth ≤ 127) :
    (∀ path w, at? path v = some w →
      Pointer.resolve (Pointer.ofPath path) v = some w ∧
        (w.ReadsBack → Placed path → run (ofPath path) v = .ok [w])) ∧
    (v.ReadsBack → run "." v = .ok [v]) := by
  refine ⟨fun path w hw => ⟨Pointer.resolve_ofPath hw, fun hback hplaced => ?_⟩, fun hback => ?_⟩
  · exact run_ofPath hd hdepth hw hback hplaced
  · have hempty : Placed [] := fun _ hi => absurd hi List.not_mem_nil
    have hdot : run (ofPath []) v = .ok [v] := run_ofPath hd hdepth rfl hback hempty
    exact hdot

def minusZero : Number.Double := { Number.Extended.zero with negative := true }

def largestWord : Word := ⟨0xFFFFFFFFFFFFFFFF, by decide, by decide⟩

def numerals : Json := .array [.number (.double minusZero), .number (.word largestWord)]

def drawer : Json :=
  .object [("a", .string "\x08"), ("~/\\(\"#)\x01é", .array [.null, .object [("", numerals)]])]

theorem selectors_agree_drawer :
    at? [.member "~/\\(\"#)\x01é", .item 1, .member ""] drawer = some numerals ∧
      Pointer.resolve "/~0~1\\(\"#)\x01é/1/" drawer = some numerals ∧
      run ".[\"~/\\\\(\\\"#)\\u0001é\"][1][\"\"]" drawer = .ok [numerals] ∧
      run "." drawer = .ok [drawer] := by
  have hcheck : (Json.ofText minusZero.text).toOption.map compact =
      some (number (.double minusZero)).compact := by decide +kernel
  have hminus : (number (.double minusZero)).ReadsBack := by
    refine readsBack_of_scalar rfl fun x hx => ?_
    cases hx
    cases hread : Json.ofText minusZero.text with
    | error e =>
      rw [hread] at hcheck
      cases hcheck
    | ok v =>
      rw [hread] at hcheck
      rw [compact_injective (Option.some.inj hcheck)]
  have hscalar {v : Json} (hv : v.isContainer = false) (hn : ∀ x, v ≠ number (.double x)) :
      v.ReadsBack := readsBack_of_scalar hv fun x hx => absurd hx (hn x)
  have hnumerals : numerals.ReadsBack :=
    readsBack_array_iff.mpr (List.forall_mem_cons.mpr
      ⟨hminus, List.forall_mem_singleton.mpr (hscalar rfl (by simp))⟩)
  have hlast : (array [.null, .object [("", numerals)]]).ReadsBack :=
    readsBack_array_iff.mpr (List.forall_mem_cons.mpr ⟨hscalar rfl (by simp),
      List.forall_mem_singleton.mpr ((readsBack_object_iff (by decide)).mpr
        (List.forall_mem_singleton.mpr hnumerals))⟩)
  have hdrawer : drawer.ReadsBack :=
    (readsBack_object_iff (by decide)).mpr (List.forall_mem_cons.mpr
      ⟨hscalar rfl (by simp), List.forall_mem_singleton.mpr hlast⟩)
  have hd : drawer.Distinct := by decide
  have hat : at? [.member "~/\\(\"#)\x01é", .item 1, .member ""] drawer = some numerals := rfl
  obtain ⟨hpaths, hroot⟩ := selectors_agree drawer hd (by decide)
  obtain ⟨hpointer, hfilter⟩ := hpaths _ _ hat
  exact ⟨hat, hpointer, hfilter hnumerals (by simp [Placed, Value.greatestInt]), hroot hdrawer⟩

end Filter

end SchemaByExample
