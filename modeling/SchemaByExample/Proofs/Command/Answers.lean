import SchemaByExample.Command.Run
import SchemaByExample.Proofs.Command.Loading
import SchemaByExample.Proofs.Json.Meaning
import SchemaByExample.Proofs.Schema.FrontDoors

/-! The documents that a run loads and its answers for them. No object in them repeats a name,
and the answers are objects without doubles. -/
namespace SchemaByExample

open Json

/-! The JSON form of a shape. -/

namespace Shape

theorem childrenToJson_eq_map (children : List (String × Shape)) :
    childrenToJson children = children.map fun c => (c.1, c.2.toJson) := by
  induction children with
  | nil => rfl
  | cons c rest ih => rw [childrenToJson, ih, List.map_cons]

def childMembers (s : Shape) : List (String × Json) := s.children.map fun c => (c.1, c.2.toJson)

def members (s : Shape) : List (String × Json) :=
  [("kind", match s.kind with | some k => .string k.name | none => .null)] ++
    (if s.children.isEmpty then [] else [("children", .object s.childMembers)]) ++
    [("required", .bool s.required)] ++ optional "min_length" .natural s.minLength ++
    optional "unique_items" .bool s.uniqueItems ++ optional "min_items" .natural s.minItems

theorem toJson_eq_members (s : Shape) : s.toJson = .object s.members := by
  obtain ⟨kind, children, required, minLength, uniqueItems, minItems⟩ := s
  cases children with
  | nil => rfl
  | cons c rest =>
    obtain ⟨k, c⟩ := c
    simp only [toJson, childrenToJson_eq_map]
    rfl

theorem keys_optional {α : Type} (name : String) (f : α → Json) (o : Option α) :
    List.Sublist (Members.keys (optional name f o)) [name] := by
  cases o with
  | none => exact List.nil_sublist _
  | some a => exact List.Sublist.refl _

theorem nodup_keys_members (s : Shape) : (Members.keys s.members).Nodup := by
  have hchildren : List.Sublist (Members.keys
      (if s.children.isEmpty then [] else [("children", Json.object s.childMembers)]))
      ["children"] := by
    split
    · exact List.nil_sublist _
    · exact List.Sublist.refl _
  have hsub : List.Sublist (Members.keys s.members)
      (["kind"] ++ ["children"] ++ ["required"] ++ ["min_length"] ++ ["unique_items"] ++
        ["min_items"]) := by
    simp only [members, Members.keys, List.map_append]
    exact (((((List.Sublist.refl _).append hchildren).append (.refl _)).append
      (keys_optional ..)).append (keys_optional ..)).append (keys_optional ..)
  exact hsub.nodup (by decide)

def Plain (v : Json) : Prop := v.isContainer = false ∧ v.Integral

theorem Plain.distinct {v : Json} (h : Plain v) : v.Distinct := by
  obtain ⟨hscalar, -⟩ := h
  cases v with
  | array items => cases hscalar
  | object members => cases hscalar
  | _ => trivial

theorem plain_natural (n : UInt32) : Plain (.natural n) := ⟨rfl, trivial⟩

theorem plain_bool (b : Bool) : Plain (.bool b) := ⟨rfl, trivial⟩

theorem plain_optional {α : Type} {name : String} {f : α → Json} (hf : ∀ a, Plain (f a))
    {o : Option α} {p : String × Json} (h : p ∈ optional name f o) : Plain p.2 := by
  cases o with
  | none => cases h
  | some a =>
    obtain rfl := List.mem_singleton.mp h
    exact hf a

/-- Only the children are no scalars. -/
theorem mem_members {s : Shape} {p : String × Json} (h : p ∈ s.members) :
    Plain p.2 ∨ p.2 = .object s.childMembers := by
  simp only [members, List.mem_append, List.mem_singleton] at h
  obtain ((((rfl | h) | rfl) | h) | h) | h := h
  · left
    cases s.kind <;> exact ⟨rfl, trivial⟩
  · right
    split at h
    · cases h
    · rw [List.mem_singleton.mp h]
  · exact .inl (plain_bool _)
  · exact .inl (plain_optional plain_natural h)
  · exact .inl (plain_optional plain_bool h)
  · exact .inl (plain_optional plain_natural h)

theorem distinct_toJson {s : Shape} (h : s.Distinct) : s.toJson.Distinct := by
  induction h with
  | @intro s hn _ ih =>
    rw [toJson_eq_members]
    refine ⟨nodup_keys_members s, distinctMembers_iff.mpr fun p hp => ?_⟩
    obtain hplain | hchildren := mem_members hp
    · exact hplain.distinct
    · rw [hchildren]
      refine ⟨?_, distinctMembers_iff.mpr (List.forall_mem_map.mpr ih)⟩
      rw [childMembers, Members.keys, List.map_map]
      exact hn

theorem integral_toJson {s : Shape} (h : s.Distinct) : s.toJson.Integral := by
  induction h with
  | @intro s _ _ ih =>
    rw [toJson_eq_members]
    refine integralMembers_iff.mpr fun p hp => ?_
    obtain hplain | hchildren := mem_members hp
    · exact hplain.2
    · rw [hchildren]
      exact integralMembers_iff.mpr (List.forall_mem_map.mpr ih)

theorem distinct_ofDocument {v : Json} (h : v.Distinct) : (ofDocument v).Distinct :=
  (wellFormed_node h .root).distinct

end Shape

theorem Schema.integral_toJson (s : Schema) : ∀ position, (s.toJson position).Integral := by
  induction s using Schema.parts_induction with
  | step s hitems hproperties =>
    intro position
    rw [toJson_eq_written]
    refine integralMembers_iff.mpr fun p hp => ?_
    obtain ⟨f, -, hv, -⟩ := mem_written_iff.mp hp
    cases f with
    | items =>
      obtain ⟨i, hi, hv⟩ := Option.map_eq_some_iff.mp hv
      rw [← hv]
      exact hitems i hi .items
    | properties =>
      obtain ⟨ps, hps, hv⟩ := Option.map_eq_some_iff.mp hv
      rw [← hv]
      exact integralMembers_iff.mpr
        (List.forall_mem_map.mpr fun q hq => hproperties ps hps q hq .member)
    | required =>
      obtain ⟨names, -, hv⟩ := Option.map_eq_some_iff.mp hv
      rw [← hv]
      exact integralItems_iff.mpr (List.forall_mem_map.mpr fun _ _ => trivial)
    | _ =>
      obtain ⟨a, -, hv⟩ := Option.map_eq_some_iff.mp hv
      rw [← hv]
      trivial

/-! The outputs of a filter. -/

namespace Filter

/-- What a step keeps, a fold keeps. -/
theorem Stream.fold_keeps {α σ ε : Type} {f : σ → α → Except ε σ} {P : σ → Prop}
    (hstep : ∀ s x s', P s → f s x = .ok s' → P s') (stream : Stream α) {s s' : σ} (hs : P s)
    (h : stream.fold f s = .ok s') : P s' := by
  induction stream generalizing s with
  | nil =>
    cases h
    exact hs
  | one x => exact hstep s x s' hs h
  | cons x rest ih =>
    rw [Stream.fold] at h
    cases hx : f s x with
    | error e =>
      rw [hx] at h
      cases h
    | ok t =>
      rw [hx] at h
      exact ih () (hstep s x t hs hx) h

theorem exists_of_map_eq_ok {α β ε : Type} {f : α → β} {x : Except ε α} {b : β}
    (h : x.map f = .ok b) : ∃ a, x = .ok a ∧ f a = b := by
  cases x with
  | error e => cases h
  | ok a => exact ⟨a, rfl, Except.ok.inj h⟩

theorem distinct_documents {outs : Outputs Value} {ws : List Json}
    (h : documents outs = .ok ws) : ∀ w ∈ ws, w.Distinct := by
  rw [documents] at h
  obtain ⟨acc, hacc, rfl⟩ := exists_of_map_eq_ok h
  refine fun w hw => Stream.fold_keeps (P := fun acc => ∀ w ∈ acc, Json.Distinct w) ?_ outs
    (by simp) hacc w (List.mem_reverse.mp hw)
  intro acc x acc' hkept hstep
  cases x with
  | error e => cases hstep
  | ok v =>
    have hstep : ((Json.ofText v.text).mapError Error.notJson >>=
        fun document => pure (document :: acc)) = .ok acc' := hstep
    cases hv : Json.ofText v.text with
    | error e =>
      rw [hv] at hstep
      cases hstep
    | ok w =>
      rw [hv] at hstep
      cases hstep
      exact List.forall_mem_cons.mpr ⟨distinct_of_ofText hv, hkept⟩

/-- The outputs are read from texts. -/
theorem distinct_runWith {engine : Engine} {source : String} {v : Json} {ws : List Json}
    (h : runWith engine source v = .ok ws) : ∀ w ∈ ws, w.Distinct := by
  rw [runWith] at h
  cases houts : engine source v with
  | error e =>
    rw [houts] at h
    cases h
  | ok outs =>
    rw [houts] at h
    exact distinct_documents h

end Filter

namespace Command

open Files

/-! Whatever is loaded repeats no names. -/

def Sound (step : Except LoadError (List Json)) : Prop :=
  ∀ ws, step = .ok ws → ∀ w ∈ ws, w.Distinct

theorem Sound.results {step : Except LoadError (List Json)} (h : Sound step) :
    ∀ w ∈ results step, w.Distinct := by
  cases step with
  | error e => simp [Command.results]
  | ok ws => exact h ws rfl

theorem sound_error (e : LoadError) : Sound (.error e) := nofun

theorem sound_quiet {α : Type} (step : Except LoadError (List α)) : Sound (quiet step) := by
  intro ws h w hw
  cases step with
  | error e => cases h
  | ok vs =>
    cases h
    cases hw

theorem sound_parsePiece (label : String) (piece : Option Nat × String) :
    Sound (parsePiece label piece) := by
  intro ws h w hw
  rw [parsePiece] at h
  cases hv : Json.ofText piece.2 with
  | error e =>
    rw [hv] at h
    cases h
  | ok v =>
    rw [hv] at h
    cases h
    rw [List.mem_singleton.mp hw]
    exact distinct_of_ofText hv

variable {engine : Filter.Engine}

theorem sound_filtered (s : InputSettings) {v : Json} (hv : v.Distinct) :
    Sound (filtered engine s v) := by
  intro ws h w hw
  rw [filtered] at h
  split at h
  · cases h
    rwa [List.mem_singleton.mp hw]
  · split at h
    · rename_i hrun
      cases h
      exact Filter.distinct_runWith hrun w hw
    · cases h

theorem distinct_pointed {s : InputSettings} {label : String} {v w : Json}
    (h : pointed s label v = .ok w) (hv : v.Distinct) : w.Distinct := by
  rw [pointed] at h
  split at h
  · cases h
    exact hv
  · split at h
    · rename_i hresolve
      cases h
      exact Pointer.distinct_resolve hresolve hv
    · cases h

theorem sound_documentSteps (s : InputSettings) (label : String) {v : Json} (hv : v.Distinct) :
    ∀ step ∈ documentSteps engine s label v, Sound step := by
  rw [documentSteps]
  cases hp : pointed s label v with
  | error e => exact List.forall_mem_singleton.mpr (sound_error e)
  | ok w =>
    refine List.forall_mem_cons.mpr ⟨?_, List.forall_mem_singleton.mpr ?_⟩
    · intro ws h
      cases h
      simp
    · exact sound_filtered s (distinct_pointed hp hv)

theorem sound_sourceSteps (disk : Disk) (s : InputSettings) (source : Source × Bytes) :
    ∀ step ∈ sourceSteps engine disk s source, Sound step := by
  rw [sourceSteps]
  cases textOf disk source with
  | error e => exact List.forall_mem_singleton.mpr (sound_error e)
  | ok text =>
    intro step hstep
    simp only [textSteps, List.mem_cons, List.mem_append, List.mem_map, List.mem_flatMap] at hstep
    obtain rfl | ⟨parsed, -, rfl⟩ | ⟨v, ⟨parsed, ⟨piece, -, rfl⟩, hv⟩, hstep⟩ := hstep
    · intro ws h
      cases h
      simp
    · exact sound_quiet parsed
    · have hdistinct := (sound_parsePiece source.1.label piece).results v hv
      exact sound_documentSteps s source.1.label hdistinct step hstep

theorem distinct_of_load {disk : Disk} {stdin : Bytes} {s : InputSettings}
    {documents : List Json} (h : load engine disk stdin s = .ok documents) :
    ∀ d ∈ documents, d.Distinct := by
  obtain ⟨parts, hparts, rfl⟩ := loadWith_eq_ok_iff.mp h
  intro d hd
  obtain ⟨part, hpart, hd⟩ := List.mem_flatten.mp hd
  have hstep : .ok part ∈ loadSteps engine (glob disk) disk stdin s :=
    hparts ▸ List.mem_map_of_mem hpart
  simp only [loadSteps, List.mem_append, List.mem_map, List.mem_flatMap] at hstep
  obtain ⟨i, -, hquiet⟩ | ⟨source, -, hstep⟩ := hstep
  · exact sound_quiet _ part hquiet d hd
  · exact sound_sourceSteps disk s source _ hstep part rfl d hd

/-! The answers. -/

theorem answer_object (p : Product) (v : Json) : ∃ members, answer p v = .object members := by
  cases p with
  | schema => exact ⟨_, Schema.toJson_eq_written _ _⟩
  | shape => exact ⟨_, Shape.toJson_eq_members _⟩

theorem distinct_answer (p : Product) {v : Json} (h : v.Distinct) : (answer p v).Distinct := by
  cases p with
  | schema => exact Schema.distinct_toJson _ (Schema.distinct_infer h) .member
  | shape => exact Shape.distinct_toJson (Shape.distinct_ofDocument h)

theorem integral_answer (p : Product) {v : Json} (h : v.Distinct) : (answer p v).Integral := by
  cases p with
  | schema => exact Schema.integral_toJson _ .member
  | shape => exact Shape.integral_toJson (Shape.distinct_ofDocument h)

end Command

end SchemaByExample
