import SchemaByExample.Proofs.Json.TypedReading
import SchemaByExample.Proofs.Schema.Fields

/-! Reading undoes writing. Every text of a schema's JSON form is read as the schema, and
where the text nests too many containers it is refused for that. -/
namespace SchemaByExample.Schema

open Read Json Literal

theorem reads_kind (budget : Nat) (k : Kind) : Reads (readKind budget) (.string k.name) True k := by
  intro bl text rest hbl hw hr
  refine .of_eq ?_
  have hs := (reads_string "variant identifier" k.name .nil hw hr).ok trivial
  cases hw
  have hquote : isBlank (byte '"') = false := by decide
  rw [encode_quote] at hs ⊢
  simp only [readKind, skipBlanks_append hbl, List.cons_append, skipBlanks_cons hquote, if_true]
  simp only [kindName, List.nil_append, List.cons_append] at hs ⊢
  rw [hs, ok_bind]
  simp only [Kind.ofName?_name]

theorem reads_names (budget : Nat) (names : List String) :
    Reads (readNames budget) (.array (names.map .string))
      ((Json.array (names.map .string)).depth ≤ budget) names := by
  have h := reads_array "a sequence" budget fun n _ s (_ : s ∈ names) =>
    (reads_string "a string" s).of_scalar rfl n
  rwa [List.map_id'] at h

section Fields

variable {s : Schema} {budget : Nat} {schema : Bytes → Except Failure (Schema × Bytes)}
  {properties : Bytes → Except Failure (Members Schema × Bytes)}

/-- An optional value is read and put into the schema. -/
theorem reads_into {α : Type} {value : Bytes → Except Failure (α × Bytes)} {source : α → Json}
    {o : Option α} {v : Json} (hv : o.map source = some v) (hn : ∀ a, (source a).isNull = false)
    (h : ∀ a, o = some a → Reads value (source a) ((source a).depth ≤ budget) a)
    {g : Option α → Schema} {t : Schema} (hg : g o = t) :
    Reads (fun bytes => do
      let (a, rest) ← Typed.optional value bytes
      .ok (g a, rest)) v (v.depth ≤ budget) t := by
  obtain ⟨a, rfl, rfl⟩ := Option.map_eq_some_iff.mp hv
  subst hg
  intro bl text rest hbl hw hr
  exact (reads_optional (h a rfl) (hn a) hbl hw hr).bind_ok rfl

/-- The reader of a field adds the field to those that are read. -/
theorem reads_field
    (hi : ∀ i, s.items = some i →
      Reads schema (i.toJson .items) ((i.toJson .items).depth ≤ budget) i)
    (hp : ∀ ps, s.properties = some ps →
      Reads properties (.object (ps.map fun p => (p.1, p.2.document)))
        ((Json.object (ps.map fun p => (p.1, p.2.document))).depth ≤ budget) ps)
    (seen : List Field) {f : Field} {v : Json} (hv : s.value? f = some v) :
    Reads (readField budget schema properties (s.only seen) f) v (v.depth ≤ budget)
      (s.only (f :: seen)) := by
  intro bl text rest hbl hw hr
  cases f with
  | dialect =>
    exact reads_into (g := fun o => { s.only seen with dialect := o }) hv (fun _ => rfl)
      (fun d _ => (reads_string "a string" d).of_scalar rfl budget) (by simp [only]) hbl hw hr
  | description =>
    exact reads_into (g := fun o => { s.only seen with description := o }) hv (fun _ => rfl)
      (fun d _ => (reads_string "a string" d).of_scalar rfl budget) (by simp [only]) hbl hw hr
  | kind =>
    exact reads_into (g := fun o => { s.only seen with kind := o }) hv (fun _ => rfl)
      (fun k _ => (reads_kind budget k).of_scalar rfl budget) (by simp [only]) hbl hw hr
  | minLength =>
    exact reads_into (g := fun o => { s.only seen with minLength := o }) hv (fun _ => rfl)
      (fun n _ => (reads_natural n).of_scalar rfl budget) (by simp [only]) hbl hw hr
  | minItems =>
    exact reads_into (g := fun o => { s.only seen with minItems := o }) hv (fun _ => rfl)
      (fun n _ => (reads_natural n).of_scalar rfl budget) (by simp [only]) hbl hw hr
  | uniqueItems =>
    exact reads_into (g := fun o => { s.only seen with uniqueItems := o }) hv (fun _ => rfl)
      (fun b _ => (reads_bool b).of_scalar rfl budget) (by simp [only]) hbl hw hr
  | items =>
    exact reads_into (g := fun o => { s.only seen with items := o }) hv
      (fun i => by rw [toJson_eq_written]; rfl) hi (by simp [only]) hbl hw hr
  | properties =>
    exact reads_into (g := fun o => { s.only seen with properties := o }) hv (fun _ => rfl) hp
      (by simp [only]) hbl hw hr
  | required =>
    exact reads_into (g := fun o => { s.only seen with required := o }) hv (fun _ => rfl)
      (fun names _ => reads_names budget names) (by simp [only]) hbl hw hr

end Fields

/-- The members of the object form, from a state in which some fields are read. -/
theorem namedFields_written {field : FieldReader} {s : Schema} {budget : Nat}
    (h : ∀ seen f v, s.value? f = some v →
      Reads (field (s.only seen) f) v (v.depth ≤ budget) (s.only (f :: seen)))
    {fields seen : List Field} (hd : fields.Nodup) (hs : ∀ f ∈ fields, f ∉ seen)
    (ha : ∀ f, f ∈ fields ∨ f ∈ seen ∨ s.value? f = none) {first : Bool} {text : Bytes}
    (hw : WrittenMembers first (s.written fields) text) (rest : Bytes) {fuel : Nat}
    (hf : (s.written fields).length < fuel) :
    Yields (∀ p ∈ s.written fields, p.2.depth ≤ budget)
      (namedFields field fuel first seen (s.only seen) (text ++ rest))
      (s, byte '\x7d' :: rest) := by
  -- on the fields still to come: one that is not set leaves no member, one that is set
  -- moves over to `seen`
  induction fields generalizing seen first text fuel with
  | nil =>
    obtain ⟨fuel, rfl⟩ := Nat.exists_eq_add_one_of_ne_zero (Nat.ne_zero_of_lt hf)
    have hself : s.only seen = s := only_eq_self fun f => (ha f).resolve_left (by simp)
    rw [written_nil] at hw ⊢
    cases hw with
    | nil hbl =>
      refine (Yields.of_eq ?_).congr (by simp)
      rw [List.append_assoc, List.singleton_append, namedFields, nextKey_close first hbl, hself]
      rfl
  | cons f fields ih =>
    obtain ⟨hf', hd⟩ := List.nodup_cons.mp hd
    obtain ⟨hseen, hs⟩ := List.forall_mem_cons.mp hs
    cases hv : s.value? f with
    | none =>
      rw [written_cons_none hv] at hw hf ⊢
      refine ih hd hs (fun g => ?_) hw hf
      by_cases hg : g = f
      · exact .inr (.inr (hg ▸ hv))
      · exact (ha g).imp_left fun hmem => (List.mem_cons.mp hmem).resolve_left hg
    | some v =>
      rw [written_cons_some hv] at hw hf ⊢
      obtain ⟨fuel, rfl⟩ := Nat.exists_eq_add_one_of_ne_zero (Nat.ne_zero_of_lt hf)
      cases hw with
      | cons k hsep hbl hbl' htext hmore =>
        have hvalue := h seen f v hv hbl' htext (endsValue_members hmore rest)
        have hnew : ∀ g ∈ fields, g ∉ f :: seen := by
          rintro g hg (_ | ⟨_, hmem⟩)
          · exact hf' hg
          · exact hs g hg hmem
        have hall : ∀ g, g ∈ fields ∨ g ∈ f :: seen ∨ s.value? g = none := by
          intro g
          obtain hg | hg | hg := ha g
          · obtain rfl | hg := List.mem_cons.mp hg
            · exact .inr (.inl (by simp))
            · exact .inl hg
          · exact .inr (.inl (List.mem_cons_of_mem f hg))
          · exact .inr (.inr hg)
        have hfuel : (s.written fields).length < fuel := by simpa using hf
        have hrest := ih hd hnew hall hmore hfuel
        simp only [List.append_assoc, List.cons_append, namedFields, nextKey_member hsep, ok_bind,
          Field.ofName?_name, if_neg hseen, colon_blanks hbl]
        exact ((hvalue.inside (.key f.name)).bind hrest).congr (by rw [List.forall_mem_cons])

theorem fieldOrder_nodup (position : Position) : (fieldOrder position).Nodup := by
  cases position <;> decide

theorem mem_fieldOrder (position : Position) (f : Field) : f ∈ fieldOrder position := by
  cases position <;> cases f <;> decide

/-- Properties are read if their schemas are. -/
theorem reads_properties {ps : List (String × Schema)} (hk : (Members.keys ps).Nodup)
    (h : ∀ p ∈ ps, ∀ n, Reads (read n) p.2.document (p.2.document.depth ≤ n) p.2) (budget : Nat) :
    Reads (readProperties budget (read (budget - 1)))
      (.object (ps.map fun p => (p.1, p.2.document)))
      ((Json.object (ps.map fun p => (p.1, p.2.document))).depth ≤ budget) ps := by
  have hvalue : ∀ n, budget = n + 1 → ∀ p ∈ ps,
      Reads (read (budget - 1)) p.2.document (p.2.document.depth ≤ n) p.2 := by
    rintro n rfl p hp
    exact h p hp n
  have hread := reads_object "a map" budget hk hvalue
  rwa [List.map_id'] at hread

/-- A schema is read from every text of its JSON form that nests as deep as the budget allows. -/
theorem reads_schema (s : Schema) (hd : s.Distinct) (position : Position) (budget : Nat) :
    Reads (read budget) (s.toJson position) ((s.toJson position).depth ≤ budget) s := by
  induction s using parts_induction generalizing position budget with
  | step s hitems hproperties =>
    intro bl text rest hbl hw hr
    rw [toJson_eq_written] at hw ⊢
    have hopen : isBlank (byte '\x7b') = false := by decide
    have hne : byte '\x7b' ≠ byte '[' := by decide
    cases hw with
    | @object _ text hmembers =>
      cases budget with
      | zero =>
        simp only [read, readWith, List.cons_append, skipBlanks_append hbl, skipBlanks_cons hopen,
          or_true, if_true]
        exact ⟨fun hdepth => by simp [depth] at hdepth, fun _ => ⟨_, rfl, rfl⟩⟩
      | succ budget =>
        have hi : ∀ i, s.items = some i →
            Reads (read budget) (i.toJson .items) ((i.toJson .items).depth ≤ budget) i :=
          fun i hi => hitems i hi (hd.items hi) .items budget
        have hp : ∀ ps, s.properties = some ps →
            Reads (readProperties budget (read (budget - 1)))
              (.object (ps.map fun p => (p.1, p.2.document)))
              ((Json.object (ps.map fun p => (p.1, p.2.document))).depth ≤ budget) ps :=
          fun ps hps => reads_properties (hd.keys hps)
            (fun p hp => hproperties ps hps p hp (hd.property hps hp) .member) budget
        have hlen := length_lt_of_members hmembers
        have hfuel : (s.written (fieldOrder position)).length < (text ++ rest).length + 1 := by
          rw [List.length_append]
          omega
        have hfields := namedFields_written (fun seen f v hv => reads_field hi hp seen hv)
          (fieldOrder_nodup position) (fun f _ => List.not_mem_nil)
          (fun f => .inl (mem_fieldOrder position f)) hmembers rest hfuel
        rw [only_nil] at hfields
        rw [read_succ]
        simp only [readWith, List.cons_append, skipBlanks_append hbl, skipBlanks_cons hopen,
          or_true, if_true, if_neg hne]
        refine Yields.congr (hfields.bind_ok ?_) depth_object_le_succ.symm
        rfl

/-- A schema's text is read as the schema, if it nests no more containers than a text may. -/
theorem ofBytes_written {s : Schema} (hd : s.Distinct) {text : Bytes}
    (hw : Written s.document text) :
    (s.document.depth ≤ maxDepth → ofBytes text = .ok s) ∧
      (maxDepth < s.document.depth → ∃ e, ofBytes text = .error e ∧ e.cause = .recursionLimit) := by
  have h : Yields (s.document.depth ≤ maxDepth) (read maxDepth ([] ++ (text ++ []))) (s, []) :=
    reads_schema s hd .member maxDepth .nil hw rfl
  rw [List.nil_append, List.append_nil] at h
  constructor
  · intro hdepth
    rw [ofBytes, readWhole, h.ok hdepth]
    rfl
  · intro hdepth
    obtain ⟨f, hf, hc⟩ := h.limit (Nat.not_le.mpr hdepth)
    exact ⟨_, by rw [ofBytes, readWhole, hf], hc⟩

/-- So is what the printer writes in a layout that puts nothing but blanks between tokens. -/
theorem ofText_render {sp : Spacing} (hsp : sp.Blank) {s : Schema} (hd : s.Distinct) :
    (s.document.depth ≤ maxDepth → ofText (String.ofList (render sp 0 s.document)) = .ok s) ∧
      (maxDepth < s.document.depth →
        ∃ e, ofText (String.ofList (render sp 0 s.document)) = .error e ∧
          e.cause = .recursionLimit) := by
  have h := ofBytes_written hd (written_render hsp 0 s.document)
  rwa [ofText, Utf8.ofString, String.toList_ofList]

/-- Both layouts of a schema are read back as the schema, with the order of its properties. A
schema whose JSON form nests more than 127 containers is refused for its depth. -/
theorem ofText_document (s : Schema) (hd : s.Distinct) :
    (s.document.depth ≤ 127 →
      ofText s.document.compact = .ok s ∧ ofText s.document.pretty = .ok s) ∧
    (128 ≤ s.document.depth →
      (∃ e, ofText s.document.compact = .error e ∧ e.cause = .recursionLimit) ∧
        ∃ e, ofText s.document.pretty = .error e ∧ e.cause = .recursionLimit) := by
  have hcompact := ofText_render blank_compact hd
  have hpretty := ofText_render blank_pretty hd
  exact ⟨fun h => ⟨hcompact.1 h, hpretty.1 h⟩, fun h => ⟨hcompact.2 h, hpretty.2 h⟩⟩

def tower : Nat → Schema
  | 0 =>
    { description := some "\"\n"
      kind := some .string
      minLength := some 4294967295
      uniqueItems := some false
      properties := some [("b", {}), ("", {}), ("a", {})]
      required := some ["none", "none"] }
  | n + 1 => { items := some (tower n) }

theorem distinct_tower (n : Nat) : (tower n).Distinct := by
  induction n with
  | zero => simp [tower, Distinct, DistinctItems, DistinctProperties, DistinctMembers, Members.keys]
  | succ n ih => exact ⟨ih, trivial⟩

theorem depth_tower (n : Nat) (position : Position) :
    ((tower n).toJson position).depth = n + 3 := by
  induction n generalizing position with
  | zero => cases position <;> rfl
  | succ n ih =>
    have hwritten : (tower (n + 1)).written (fieldOrder position) =
        [("items", (tower n).toJson .items)] := by cases position <;> rfl
    rw [toJson_eq_written, hwritten, depth, depthMembers, depthMembers, ih, Nat.max_zero]

theorem ofText_tower :
    ofText (tower 124).document.pretty = .ok (tower 124) ∧
      ∃ e, ofText (tower 125).document.pretty = .error e ∧ e.cause = .recursionLimit := by
  have hlow := ofText_document (tower 124) (distinct_tower 124)
  have hhigh := ofText_document (tower 125) (distinct_tower 125)
  exact ⟨(hlow.1 (Nat.le_of_eq (depth_tower 124 _))).2,
    (hhigh.2 (Nat.le_of_eq (depth_tower 125 _).symm)).2⟩

end SchemaByExample.Schema
