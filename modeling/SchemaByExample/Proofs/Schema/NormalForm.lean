import SchemaByExample.Proofs.Json.Accepting
import SchemaByExample.Proofs.Json.WrittenNesting
import SchemaByExample.Proofs.Schema.Depth

/-! The normal form of schema texts. Fields in any order, values in an array, nulls and kinds
in braces all are gone once a schema is read. What is written for it nests no deeper than the
text it was read from, and so it is read back without further conditions. -/
namespace SchemaByExample.Schema

open Read Literal

def Fits (s : Schema) (n : Nat) : Prop := s.Distinct ∧ s.document.depth ≤ n

theorem Fits.mono ⦃s : Schema⦄ ⦃m n : Nat⦄ (hmn : m ≤ n) (h : s.Fits m) : s.Fits n :=
  ⟨h.1, Nat.le_trans h.2 hmn⟩

theorem distinct_iff {s : Schema} : s.Distinct ↔
    (∀ i, s.items = some i → i.Distinct) ∧
    ∀ ps, s.properties = some ps → (Members.keys ps).Nodup ∧ ∀ p ∈ ps, p.2.Distinct := by
  constructor
  · intro h
    exact ⟨fun i hi => h.items hi, fun ps hps => ⟨h.keys hps, fun p hp => h.property hps hp⟩⟩
  · obtain ⟨_, _, _, _, _, _, items, properties, _⟩ := s
    rintro ⟨hi, hp⟩
    refine ⟨?_, ?_⟩
    · cases items with
      | none => trivial
      | some i => exact hi i rfl
    · cases properties with
      | none => trivial
      | some ps =>
        obtain ⟨hk, hs⟩ := hp ps rfl
        exact ⟨hk, distinctMembers_iff.mpr hs⟩

def FitMembers (ps : Members Schema) (n : Nat) : Prop :=
  (Members.keys ps).Nodup ∧ FitInside (fun p => p.2.Fits) ps n

/-- A schema fits where its fields fit one level further in. -/
theorem fits_succ_iff {s : Schema} {n : Nat} : s.Fits (n + 1) ↔
    (∀ i, s.items = some i → i.Fits n) ∧
    (∀ ps, s.properties = some ps → FitMembers ps n) ∧
    (∀ names, s.required = some names → 0 < n) := by
  rw [Fits, distinct_iff, depth_document_le_iff]
  constructor
  · rintro ⟨⟨hi, hp⟩, hi', hp', hr⟩
    refine ⟨fun i h => ⟨hi i h, hi' i h⟩, fun ps h => ?_, hr⟩
    obtain ⟨hk, hd⟩ := hp ps h
    obtain ⟨hn, hlt⟩ := hp' ps h
    exact ⟨hk, hn, fun p hmem => ⟨hd p hmem, Nat.le_sub_one_of_lt (hlt p hmem)⟩⟩
  · rintro ⟨hi, hp, hr⟩
    refine ⟨⟨fun i h => (hi i h).1, fun ps h => ?_⟩, fun i h => (hi i h).2, fun ps h => ?_, hr⟩
    · obtain ⟨hk, -, hfit⟩ := hp ps h
      exact ⟨hk, fun p hmem => (hfit p hmem).1⟩
    · obtain ⟨-, hn, hfit⟩ := hp ps h
      exact ⟨hn, fun p hmem => Nat.lt_of_le_sub_one hn (hfit p hmem).2⟩

theorem FitMembers.mono {ps : Members Schema} {m n : Nat} (hmn : m ≤ n) (h : FitMembers ps m) :
    FitMembers ps n := by
  obtain ⟨hk, hm, hfit⟩ := h
  exact ⟨hk, Nat.lt_of_lt_of_le hm hmn, fun p hp => (hfit p hp).mono (Nat.sub_le_sub_right hmn 1)⟩

def Extends (s t : Schema) (n : Nat) : Prop :=
  ∀ ⦃m⦄, n ≤ m → s.Fits (m + 1) → t.Fits (m + 1)

theorem Extends.refl (s : Schema) : Extends s s 0 := fun _ _ h => h

theorem Extends.trans {s t u : Schema} {m n : Nat} (h : Extends s t m) (h' : Extends t u n) :
    Extends s u (max m n) :=
  fun _ hk hs => h' (Nat.le_trans (Nat.le_max_right m n) hk)
    (h (Nat.le_trans (Nat.le_max_left m n) hk) hs)

/-- To a schema without fields. -/
theorem Extends.fits {t : Schema} {n : Nat} (h : Extends {} t n) : t.Fits (n + 1) :=
  h (Nat.le_refl n) (fits_succ_iff.mpr ⟨by simp, by simp, by simp⟩)

section Fields

variable {budget : Nat} {bytes rest : Bytes}

theorem spans_kindName {k : Kind} (h : kindName bytes = .ok (k, rest)) : Spans 0 bytes rest := by
  simp only [kindName, bind_eq_ok, Prod.exists] at h
  obtain ⟨name, r, hname, h⟩ := h
  split at h
  · cases h
    exact spans_typedString hname
  · cases h

theorem accepts_kind (budget : Nat) : Accepts budget (fun _ _ => True) (readKind budget) := by
  intro bytes k rest h
  unfold readKind at h
  split at h
  · cases h
  · rename_i b tail hb
    have hblanks := spans_of_skipBlanks hb
    split at h
    · exact .of_spans ((spans_kindName h).after hblanks) trivial
    · split at h
      · rename_i hbrace
        cases budget with
        | zero => cases h
        | succ budget =>
          simp only [bind_eq_ok, inside_eq_ok, Prod.exists] at h
          obtain ⟨k', r1, hkind, _, r2, hcolon, _, r3, hnull, h⟩ := h
          split at h
          · cases h
          · rename_i c tail' hc
            split at h
            · rename_i hclose
              cases h
              have hkey := (spans_colon hcolon).after (spans_kindName hkind)
              have hvalue := (spans_of_skipBlanks hc).after (spans_null hnull)
              have hinner : Takes budget tail (c :: _) fun _ => True :=
                .of_spans (hvalue.after hkey) trivial
              exact (hinner.bracket (.inr hbrace) (.inr hclose) fun _ _ => trivial).after hblanks
            · cases h
      · cases h

theorem accepts_names (budget : Nat) :
    Accepts budget (FitInside fun _ _ => True) (readNames budget) :=
  accepts_array (fun _ _ _ _ h => h) "a sequence" fun n _ =>
    .of_spans (fun _ _ _ => spans_typedString) n

theorem accepts_properties {schema : Bytes → Except Failure (Schema × Bytes)}
    (h : ∀ n, budget = n + 1 → Accepts n Fits schema) :
    Accepts budget FitMembers (readProperties budget schema) :=
  accepts_object Fits.mono "a map" h

theorem accepts_into {α : Type} {fits : α → Nat → Prop}
    {value : Bytes → Except Failure (α × Bytes)} (h : Accepts budget fits value) {s : Schema}
    {g : Option α → Schema}
    (hg : ∀ o n, (∀ a, o = some a → fits a n) → Extends s (g o) n) :
    Accepts budget (Extends s) (fun bytes => do
      let (a, rest) ← Typed.optional value bytes
      .ok (g a, rest)) := by
  intro bytes t rest hr
  simp only [bind_eq_ok, Prod.exists] at hr
  obtain ⟨o, r, ho, hr⟩ := hr
  cases hr
  obtain ⟨n, hn, hspans, hfits⟩ := accepts_optional h ho
  exact ⟨n, hn, hspans, hg o n hfits⟩

theorem accepts_field {schema : Bytes → Except Failure (Schema × Bytes)}
    {properties : Bytes → Except Failure (Members Schema × Bytes)}
    (hi : Accepts budget Fits schema) (hp : Accepts budget FitMembers properties) (s : Schema)
    (f : Field) : Accepts budget (Extends s) (readField budget schema properties s f) := by
  -- a field without containers leaves the conditions on the others as they are
  have hplain {t : Schema} {n : Nat} (hitems : t.items = s.items)
      (hproperties : t.properties = s.properties) (hrequired : t.required = s.required) :
      Extends s t n := by
    intro m _ h
    rw [fits_succ_iff] at h ⊢
    rwa [hitems, hproperties, hrequired]
  intro bytes t rest h
  cases f with
  | dialect =>
    exact accepts_into (g := fun o => { s with dialect := o })
      (.of_spans (fun _ _ _ => spans_typedString) budget) (fun _ _ _ => hplain rfl rfl rfl) h
  | description =>
    exact accepts_into (g := fun o => { s with description := o })
      (.of_spans (fun _ _ _ => spans_typedString) budget) (fun _ _ _ => hplain rfl rfl rfl) h
  | kind =>
    exact accepts_into (g := fun o => { s with kind := o }) (accepts_kind budget)
      (fun _ _ _ => hplain rfl rfl rfl) h
  | minLength =>
    exact accepts_into (g := fun o => { s with minLength := o })
      (.of_spans (fun _ _ _ => spans_natural) budget) (fun _ _ _ => hplain rfl rfl rfl) h
  | minItems =>
    exact accepts_into (g := fun o => { s with minItems := o })
      (.of_spans (fun _ _ _ => spans_natural) budget) (fun _ _ _ => hplain rfl rfl rfl) h
  | uniqueItems =>
    exact accepts_into (g := fun o => { s with uniqueItems := o })
      (.of_spans (fun _ _ _ => spans_bool) budget) (fun _ _ _ => hplain rfl rfl rfl) h
  | items =>
    refine accepts_into (g := fun o => { s with items := o }) hi (fun o n ho m hm hs => ?_) h
    obtain ⟨-, hps, hr⟩ := fits_succ_iff.mp hs
    exact fits_succ_iff.mpr ⟨fun i hi => (ho i hi).mono hm, hps, hr⟩
  | properties =>
    refine accepts_into (g := fun o => { s with properties := o }) hp (fun o n ho m hm hs => ?_) h
    obtain ⟨hi, -, hr⟩ := fits_succ_iff.mp hs
    exact fits_succ_iff.mpr ⟨hi, fun ps hps => (ho ps hps).mono hm, hr⟩
  | required =>
    refine accepts_into (g := fun o => { s with required := o }) (accepts_names budget)
      (fun o n ho m hm hs => ?_) h
    obtain ⟨hi, hps, -⟩ := fits_succ_iff.mp hs
    exact fits_succ_iff.mpr ⟨hi, hps, fun names hr => Nat.lt_of_lt_of_le (ho names hr).1 hm⟩

end Fields

section Forms

variable {budget : Nat} {field : FieldReader}
  (hfield : ∀ s f, Accepts budget (Extends s) (field s f))

include hfield

/-- The array form. -/
theorem accepts_listedFields (i : Nat) (fields : List Field) (s : Schema) :
    Accepts budget (Extends s) (listedFields field i fields s) := by
  induction fields generalizing i s with
  | nil =>
    intro bytes t rest h
    cases h
    exact .of_spans (.refl _ _) (.refl _)
  | cons f fields ih =>
    intro bytes t rest h
    simp only [listedFields, bind_eq_ok, Prod.exists] at h
    obtain ⟨more, r, hnext, h⟩ := h
    have hfront := spans_nextItem hnext
    cases more with
    | false =>
      cases h
      exact .of_spans hfront (.refl _)
    | true =>
      simp only [if_true, bind_eq_ok, inside_eq_ok, Prod.exists] at h
      obtain ⟨s', r', hvalue, h⟩ := h
      exact ((hfield s f hvalue).trans (ih _ _ h) fun _ _ => Extends.trans).after hfront

/-- The object form, up to its closing brace. -/
theorem accepts_namedFields {fuel : Nat} {first : Bool} {seen : List Field} {s t : Schema}
    {bytes rest : Bytes} (hf : bytes.length < fuel)
    (h : namedFields field fuel first seen s bytes = .ok (t, rest)) :
    Takes budget bytes rest (Extends s t) ∧ ∃ tail, rest = byte '\x7d' :: tail := by
  induction fuel generalizing first seen s bytes with
  | zero => exact absurd hf (Nat.not_lt_zero _)
  | succ fuel ih =>
    simp only [namedFields, bind_eq_ok, Prod.exists] at h
    obtain ⟨key, r, hkey, h⟩ := h
    cases key with
    | none =>
      cases h
      obtain ⟨hspans, hclose⟩ := spans_nextKey_none hkey
      exact ⟨.of_spans hspans (.refl _), hclose⟩
    | some k =>
      dsimp only at h
      split at h
      · cases h
      · rename_i f _
        split at h
        · cases h
        · simp only [bind_eq_ok, inside_eq_ok, Prod.exists] at h
          obtain ⟨_, r1, hcolon, s', r2, hvalue, h⟩ := h
          obtain ⟨hkey, hlt⟩ := spans_nextKey_some hkey
          have hcolon := spans_colon hcolon
          have hvalue := hfield s f hvalue
          have hlength := hcolon.length_le
          have hlength' := hvalue.length_le
          obtain ⟨hmore, hclose⟩ := ih (by omega) h
          have hfields := hvalue.trans hmore fun _ _ => Extends.trans
          exact ⟨hfields.after (hcolon.after hkey), hclose⟩

theorem accepts_readWith : Accepts (budget + 1) Fits (readWith (some field)) := by
  intro bytes s rest h
  unfold readWith at h
  split at h
  · cases h
  · rename_i b tail hb
    have hblanks := spans_of_skipBlanks hb
    split at h
    · dsimp only at h
      split at h
      · rename_i hbracket
        simp only [bind_eq_ok, Prod.exists] at h
        obtain ⟨t, r, hlisted, _, r', hend, h⟩ := h
        cases h
        have hinner := (accepts_listedFields hfield _ _ _ hlisted).before (spans_endArray hend)
        exact (hinner.bracket (.inl hbracket) (.inl rfl) fun _ => Extends.fits).after hblanks
      · rename_i hopen hbracket
        simp only [bind_eq_ok, Prod.exists] at h
        obtain ⟨t, r, hnamed, h⟩ := h
        cases h
        obtain ⟨hinner, tail', rfl⟩ := accepts_namedFields hfield (Nat.lt_succ_self _) hnamed
        have hbrace := hopen.resolve_left hbracket
        exact (hinner.bracket (.inr hbrace) (.inr rfl) fun _ => Extends.fits).after hblanks
    · exact absurd h refuse_ne_ok

end Forms

theorem readWith_none_ne_ok {bytes : Bytes} {p : Schema × Bytes} :
    readWith none bytes ≠ .ok p := by
  intro h
  unfold readWith at h
  split at h
  · cases h
  · split at h
    · cases h
    · exact absurd h refuse_ne_ok

/-- Whatever a schema is read from, it repeats no name among its properties, and its JSON form
nests no more containers than the text does. -/
theorem accepts_read (budget : Nat) : Accepts budget Fits (read budget) := by
  induction budget using Nat.strongRecOn with
  | ind budget ih =>
    cases budget with
    | zero => exact fun _ _ _ h => absurd h readWith_none_ne_ok
    | succ budget =>
      rw [read_succ]
      refine accepts_readWith (accepts_field (ih budget (Nat.lt_succ_self _)) ?_)
      refine accepts_properties ?_
      rintro n rfl
      exact ih n (by omega)

/-- Behind a schema that is a whole text there are only blanks. -/
theorem fits_of_ofBytes {bytes : Bytes} {s : Schema} (h : ofBytes bytes = .ok s) :
    s.Fits (nesting bytes) ∧ nesting bytes ≤ maxDepth := by
  simp only [ofBytes, readWhole] at h
  split at h
  · cases h
  · rename_i t rest hread
    obtain ⟨n, hn, hspans, hfits⟩ := accepts_read maxDepth hread
    split at h
    · rename_i hblank
      cases h
      have hend : Spans 0 rest [] := hblank ▸ spans_skipBlanks rest
      rw [(hspans.before hend).nests.nesting_eq]
      exact ⟨hfits, hn⟩
    · cases h

theorem ofText_render_of_ofBytes {sp : Json.Spacing} (hsp : sp.Blank) {bytes : Bytes} {s : Schema}
    (h : ofBytes bytes = .ok s) :
    ofText (String.ofList (Json.render sp 0 s.document)) = .ok s ∧
      nesting (Utf8.ofString (String.ofList (Json.render sp 0 s.document))) ≤ nesting bytes := by
  obtain ⟨⟨hd, hdepth⟩, hlimit⟩ := fits_of_ofBytes h
  rw [Utf8.ofString, String.toList_ofList, Json.nesting_render hsp]
  exact ⟨(ofText_render hsp hd).1 (Nat.le_trans hdepth hlimit), hdepth⟩

def rewritten (layout : Json → String) (bytes : Bytes) : Except ReadError Bytes :=
  (ofBytes bytes).map fun s => Utf8.ofString (layout s.document)

theorem rewritten_of_ofText {text : String} {s : Schema} (h : ofText text = .ok s)
    (layout : Json → String) :
    rewritten layout (Utf8.ofString text) = .ok (Utf8.ofString (layout s.document)) := by
  rw [ofText] at h
  rw [rewritten, h]
  rfl

/-- Whatever a schema is read from, both of its layouts are read back as the schema, with the
order of its properties, and written anew they stay as they are. They nest no more containers
than the text that it was read from. -/
theorem ofBytes_normal {bytes : Bytes} {s : Schema} (h : ofBytes bytes = .ok s) :
    ∀ layout ∈ [Json.compact, Json.pretty],
      ofText (layout s.document) = .ok s ∧
      rewritten layout (Utf8.ofString (layout s.document)) =
        .ok (Utf8.ofString (layout s.document)) ∧
      nesting (Utf8.ofString (layout s.document)) ≤ nesting bytes := by
  intro layout hmem
  simp only [List.mem_cons, List.not_mem_nil, or_false] at hmem
  obtain rfl | rfl := hmem
  · obtain ⟨hread, hnesting⟩ := ofText_render_of_ofBytes Json.blank_compact h
    exact ⟨hread, rewritten_of_ofText hread _, hnesting⟩
  · obtain ⟨hread, hnesting⟩ := ofText_render_of_ofBytes Json.blank_pretty h
    exact ⟨hread, rewritten_of_ofText hread _, hnesting⟩

def listing : Bytes := Utf8.ofString
  (" [null,\"n\",\x7b\"object\": null\x7d,null,2,null,\x7b\"minLength\":null\x7d," ++
    "\x7b\"b\":[],\"a\":[],\"b\":\x7b\"required\":[\"]\"]\x7d\x7d,[\"b\",\"b\"]]")

def listed : Schema :=
  { description := some "n"
    kind := some .object
    minItems := some 2
    items := some {}
    properties := some [("b", { required := some ["]"] }), ("a", {})]
    required := some ["b", "b"] }

theorem ofBytes_normal_listing :
    ∃ s, ofBytes listing = .ok s ∧ listed.agrees s = true ∧
      s.properties.map Members.keys = some ["b", "a"] ∧
      ofText s.document.pretty = .ok s ∧
      nesting (Utf8.ofString s.document.pretty) ≤ nesting listing := by
  have hread : (match ofBytes listing with
      | .ok s => listed.agrees s && s.properties.map Members.keys == some ["b", "a"]
      | .error _ => false) = true := by decide +kernel
  cases h : ofBytes listing with
  | error e =>
    rw [h] at hread
    cases hread
  | ok s =>
    rw [h] at hread
    simp only [Bool.and_eq_true, beq_iff_eq] at hread
    obtain ⟨hagrees, hkeys⟩ := hread
    obtain ⟨hback, -, hnesting⟩ := ofBytes_normal h Json.pretty (by simp)
    exact ⟨s, rfl, hagrees, hkeys, hback, hnesting⟩

end SchemaByExample.Schema
