import Mathlib.Data.List.Induction
import SchemaByExample.Proofs.Command.Loading
import SchemaByExample.Proofs.Json.Path

/-! What a pointer names. Its tokens stand behind slashes, and each leads one step further: to
the member of its name, or to the item at its place. A pointer that leads nowhere is refused,
and the pointers for two paths of a value are two. -/
namespace SchemaByExample

namespace Pointer

open Json Literal Number

/-! Replacing. -/

/-- The result is the text with the new part for every occurrence of the old: both are made of
the same pieces, and no piece holds the old part. -/
def Replaces (old new text result : List Char) : Prop :=
  ∃ (first : List Char) (others : List (List Char)), (∀ p ∈ first :: others, ¬old <:+: p) ∧
    text = first ++ others.flatMap (old ++ ·) ∧ result = first ++ others.flatMap (new ++ ·)

section Unescape

variable {mark : Char} (value : Char)

theorem unescapeOne_tilde {c : Char} (hc : c ≠ mark) (rest : List Char) :
    unescapeOne mark value ('~' :: c :: rest) = '~' :: unescapeOne mark value (c :: rest) := by
  rw [unescapeOne, if_neg hc]

/-- A piece without a mark stays as it is, up to the mark behind it. -/
theorem unescapeOne_piece (hmark : mark ≠ '~') {piece : List Char} (h : ¬['~', mark] <:+: piece)
    (rest : List Char) : unescapeOne mark value (piece ++ '~' :: mark :: rest) =
      piece ++ value :: unescapeOne mark value rest := by
  induction piece with
  | nil => exact unescapeOne_mark mark value rest
  | cons c piece ih =>
    obtain ⟨hfront, hpiece⟩ := not_or.mp (mt List.infix_cons_iff.mpr h)
    have hrest := ih hpiece
    by_cases hc : c = '~'
    · subst hc
      cases piece with
      | nil => exact (unescapeOne_tilde value hmark.symm _).trans (congrArg _ hrest)
      | cons d piece =>
        have hd : d ≠ mark := fun he => hfront (by simp [he])
        exact (unescapeOne_tilde value hd _).trans (congrArg _ hrest)
    · exact (unescapeOne_cons mark value hc _).trans (congrArg _ hrest)

theorem unescapeOne_of_unmarked {piece : List Char} (h : ¬['~', mark] <:+: piece) :
    unescapeOne mark value piece = piece := by
  induction piece with
  | nil => rw [unescapeOne]
  | cons c piece ih =>
    obtain ⟨hfront, hpiece⟩ := not_or.mp (mt List.infix_cons_iff.mpr h)
    have hrest := ih hpiece
    by_cases hc : c = '~'
    · subst hc
      cases piece with
      | nil => rw [unescapeOne, hrest]; simp
      | cons d piece =>
        have hd : d ≠ mark := fun he => hfront (by simp [he])
        rw [unescapeOne_tilde value hd, hrest]
    · rw [unescapeOne_cons mark value hc, hrest]

/-- A character that begins no mark belongs to the piece at the front. -/
theorem Replaces.cons {new text result : List Char} (h : Replaces ['~', mark] new text result)
    {c : Char} (hc : c = '~' → text.head? ≠ some mark) :
    Replaces ['~', mark] new (c :: text) (c :: result) := by
  obtain ⟨first, others, hpieces, rfl, rfl⟩ := h
  obtain ⟨hfirst, hothers⟩ := List.forall_mem_cons.mp hpieces
  refine ⟨c :: first, others, List.forall_mem_cons.mpr ⟨fun hmem => ?_, hothers⟩, rfl, rfl⟩
  obtain hfront | hmem := List.infix_cons_iff.mp hmem
  · obtain ⟨tail, htail⟩ := hfront
    obtain ⟨rfl, hrest⟩ := List.cons.inj htail
    exact hc rfl (by rw [← hrest]; rfl)
  · exact hfirst hmem

theorem replaces_unescapeOne (text : List Char) :
    Replaces ['~', mark] [value] text (unescapeOne mark value text) := by
  fun_induction unescapeOne mark value text with
  | case1 rest ih =>
    obtain ⟨first, others, hpieces, htext, hresult⟩ := ih
    refine ⟨[], first :: others, List.forall_mem_cons.mpr ⟨by simp, hpieces⟩, ?_, ?_⟩
    · rw [htext]
      simp
    · rw [hresult]
      simp
  | case2 c rest hc ih => exact ih.cons fun _ hhead => hc (Option.some.inj hhead)
  | case3 c rest hc ih =>
    refine ih.cons fun htilde => ?_
    cases rest with
    | nil => simp
    | cons d rest => exact absurd rfl (hc d rest htilde)
  | case4 => exact ⟨[], [], by simp, rfl, rfl⟩

/-- The occurrences of a mark do not overlap, so there is one result. -/
theorem replaces_iff (hmark : mark ≠ '~') {text result : List Char} :
    Replaces ['~', mark] [value] text result ↔ result = unescapeOne mark value text := by
  constructor
  · rintro ⟨first, others, hpieces, rfl, rfl⟩
    induction others generalizing first with
    | nil =>
      have hfirst := hpieces first List.mem_cons_self
      simpa using (unescapeOne_of_unmarked value hfirst).symm
    | cons p others ih =>
      obtain ⟨hfirst, hothers⟩ := List.forall_mem_cons.mp hpieces
      have hpiece := unescapeOne_piece value hmark hfirst
        (p ++ others.flatMap (['~', mark] ++ ·))
      rw [← ih p hothers] at hpiece
      simpa using hpiece.symm
  · rintro rfl
    exact replaces_unescapeOne value text

end Unescape

/-- The name of a token: slashes take the place of their marks, and after that tildes. -/
def Means (token name : List Char) : Prop :=
  ∃ slashed, Replaces ['~', '1'] ['/'] token slashed ∧ Replaces ['~', '0'] ['~'] slashed name

theorem means_iff {token name : List Char} : Means token name ↔ name = unescape token := by
  have hone : '1' ≠ '~' := by decide
  have hzero : '0' ≠ '~' := by decide
  simp only [Means, replaces_iff '/' hone, replaces_iff '~' hzero, exists_eq_left, unescape]

/-! Places. -/

theorem digitChar_digitValue {c : Char} (h : c.isDigit = true) :
    Nat.digitChar (digitValue c) = c := by
  obtain ⟨hlow, hhigh⟩ := isDigit_bounds h
  have hall : ∀ n < 10, Nat.digitChar n = Char.ofNat (48 + n) := by decide
  have hvalue : 48 + digitValue c = c.toNat := Nat.add_sub_cancel' hlow
  rw [hall (digitValue c) (by omega), hvalue, Char.ofNat_toNat]

theorem digitValue_lt {c : Char} (h : c.isDigit = true) : digitValue c < 10 := by
  have hhigh := (isDigit_bounds h).2
  rw [digitValue]
  omega

/-- Digits that do not begin with zero are those of the number that they write. -/
theorem toDigits_ofDigits {c : Char} (hc : c ≠ '0') {cs : List Char}
    (h : ∀ d ∈ c :: cs, d.isDigit = true) :
    Nat.toDigits 10 (ofDigits 10 ((c :: cs).map digitValue)) = c :: cs := by
  induction cs using List.reverseRecOn with
  | nil =>
    have hdigit := h c List.mem_cons_self
    have hvalue : ofDigits 10 ([c].map digitValue) = digitValue c := Nat.zero_add _
    rw [hvalue, Nat.toDigits_of_lt_base (digitValue_lt hdigit), digitChar_digitValue hdigit]
  | append_singleton ds d ih =>
    rw [← List.cons_append, List.forall_mem_append, List.forall_mem_singleton] at h
    obtain ⟨hds, hd⟩ := h
    have hfront := ih hds
    have hvalue : ofDigits 10 ((c :: (ds ++ [d])).map digitValue) =
        10 * ofDigits 10 ((c :: ds).map digitValue) + digitValue d := by
      rw [← List.cons_append, List.map_append, ofDigits, List.foldl_append]
      rfl
    have hpos : 0 < ofDigits 10 ((c :: ds).map digitValue) := by
      refine Nat.pos_of_ne_zero fun hzero => hc ?_
      rw [hzero] at hfront
      exact (List.cons.inj hfront).1.symm
    rw [hvalue, ← Nat.toDigits_append_toDigits (by decide) hpos (digitValue_lt hd), hfront,
      Nat.toDigits_of_lt_base (digitValue_lt hd), digitChar_digitValue hd, List.cons_append]

theorem place?_eq_some_iff {token : List Char} {i : Nat} :
    place? token = some i ↔ token = Nat.toDigits 10 i := by
  constructor
  · intro h
    unfold place? at h
    split at h
    · cases h
    · cases h
      rfl
    · split at h
      · rename_i c rest _ hdigits
        cases h
        exact (toDigits_ofDigits hdigits.1 (List.all_eq_true.mp hdigits.2)).symm
      · cases h
  · rintro rfl
    exact place?_toDigits i

/-! Paths of tokens. -/

/-- The tokens lead from a value to a part of it: to the member of the name, or to the item at
the place that is written without a sign and without zeros in front. -/
inductive Leads : List (List Char) → Json → Json → Prop
  | here (v : Json) : Leads [] v v
  | member {token name : List Char} {tokens : List (List Char)}
      {members : List (String × Json)} {v w : Json} : Means token name →
      Members.find? (String.ofList name) members = some v → Leads tokens v w →
        Leads (token :: tokens) (.object members) w
  | item {token : List Char} {tokens : List (List Char)} {items : List Json} {i : Nat}
      {v w : Json} : Means token (Nat.toDigits 10 i) → items[i]? = some v → Leads tokens v w →
        Leads (token :: tokens) (.array items) w

theorem follow_eq_some_iff {tokens : List (List Char)} {v w : Json} :
    follow tokens v = some w ↔ Leads tokens v w := by
  induction tokens generalizing v with
  | nil =>
    rw [follow, Option.some.injEq]
    constructor
    · rintro rfl
      exact .here v
    · intro h
      cases h
      rfl
  | cons token tokens ih =>
    cases v with
    | object members =>
      simp only [follow, bind, Option.bind_eq_some_iff, ih]
      constructor
      · rintro ⟨v, hv, hw⟩
        exact .member (means_iff.mpr rfl) hv hw
      · intro h
        cases h with
        | member hname hv hw => exact ⟨_, means_iff.mp hname ▸ hv, hw⟩
    | array items =>
      simp only [follow, bind, Option.bind_eq_some_iff, ih, place?_eq_some_iff]
      constructor
      · rintro ⟨i, hi, v, hv, hw⟩
        exact .item (means_iff.mpr hi.symm) hv hw
      · intro h
        cases h with
        | item hplace hv hw => exact ⟨_, (means_iff.mp hplace).symm, _, hv, hw⟩
    | _ => constructor <;> (intro h; cases h)

def Names (pointer : String) (v w : Json) : Prop :=
  ∃ tokens : List (List Char), (∀ t ∈ tokens, '/' ∉ t) ∧
    pointer.toList = tokens.flatMap ('/' :: ·) ∧ Leads tokens v w

theorem resolve_eq_some_iff {pointer : String} {v w : Json} :
    resolve pointer v = some w ↔ Names pointer v w := by
  constructor
  · intro h
    unfold resolve at h
    split at h
    · rename_i hempty
      cases h
      exact ⟨[], List.forall_mem_nil _, hempty, .here v⟩
    · rename_i text htext
      obtain ⟨token, tokens, hsplit, hfree, rfl⟩ := Text.exists_split '/' text
      rw [hsplit] at h
      exact ⟨token :: tokens, hfree, htext, follow_eq_some_iff.mp h⟩
    · cases h
  · rintro ⟨tokens, hfree, htext, hleads⟩
    have hfollow := follow_eq_some_iff.mpr hleads
    unfold resolve
    rw [htext]
    cases tokens with
    | nil => exact hfollow
    | cons token tokens =>
      simp only [List.flatMap_cons, List.cons_append, Text.split_flatMap hfree]
      exact hfollow

/-! Two paths. -/

theorem escape_injective {a b : List Char} (h : escape a = escape b) : a = b := by
  rw [← unescape_escape a, h, unescape_escape]

theorem toDigits_injective {i j : Nat} (h : Nat.toDigits 10 i = Nat.toDigits 10 j) : i = j := by
  rw [← ofDigits_toDigits i, h, ofDigits_toDigits]

/-- A member and an item may have one token, but not in one value. -/
theorem stepsTo_unique {s t : Step} {v u u' : Json} (hs : StepsTo s v u) (ht : StepsTo t v u')
    (h : token s = token t) : s = t ∧ u = u' := by
  cases hs with
  | member hu =>
    cases ht with
    | member hu' =>
      obtain rfl := String.toList_injective (escape_injective h)
      exact ⟨rfl, Option.some.inj (hu.symm.trans hu')⟩
  | item hu =>
    cases ht with
    | item hu' =>
      obtain rfl := toDigits_injective h
      exact ⟨rfl, Option.some.inj (hu.symm.trans hu')⟩

theorem path_eq_of_tokens {path other : List Step} {v w x : Json} (hw : at? path v = some w)
    (hx : at? other v = some x) (h : path.map token = other.map token) : path = other := by
  induction path generalizing other v with
  | nil => exact (List.map_eq_nil_iff.mp h.symm).symm
  | cons s path ih =>
    cases other with
    | nil => cases h
    | cons t other =>
      obtain ⟨htoken, hrest⟩ := List.cons.inj h
      obtain ⟨u, hu, hw⟩ := exists_stepsTo hw
      obtain ⟨u', hu', hx⟩ := exists_stepsTo hx
      obtain ⟨rfl, rfl⟩ := stepsTo_unique hu hu' htoken
      rw [ih hw hx hrest]

/-- The pointers for two paths of a value differ. -/
theorem path_eq_of_ofPath {path other : List Step} {v w x : Json} (hw : at? path v = some w)
    (hx : at? other v = some x) (h : ofPath path = ofPath other) : path = other := by
  have hfree (path : List Step) : ∀ t ∈ path.map token, '/' ∉ t :=
    List.forall_mem_map.mpr fun s _ => slash_notMem_token s
  refine path_eq_of_tokens hw hx (Text.flatMap_injective (hfree path) (hfree other) ?_)
  have htext := congrArg String.toList h
  simpa only [ofPath, String.toList_ofList, List.flatMap_map] using htext

end Pointer

namespace Command

open Json Pointer

/-- A pointer takes the part that it names, and only the part; it is refused, together with the
name of the source, if it names none. The pointer for a path leads where the path does, and two
paths of a value have two pointers. -/
theorem select_named (engine : Filter.Engine) (s : InputSettings) (label : String) (v : Json) :
    (∀ pointer documents,
      select engine { s with pointer := some pointer, filter := none } label v = .ok documents ↔
        ∃ w, documents = [w] ∧ Names pointer v w) ∧
    (∀ pointer, (¬∃ w, Names pointer v w) →
      select engine { s with pointer := some pointer, filter := none } label v =
        .error (.unresolved pointer label)) ∧
    (∀ path w, at? path v = some w →
      select engine { s with pointer := some (ofPath path), filter := none } label v = .ok [w] ∧
      ∀ other x, at? other v = some x → other ≠ path → ofPath other ≠ ofPath path) := by
  have hselect (pointer : String) :
      select engine { s with pointer := some pointer, filter := none } label v =
        (Pointer.resolve pointer v).elim (.error (.unresolved pointer label)) fun w => .ok [w] := by
    rw [select_eq_bind]
    simp only [pointed]
    cases Pointer.resolve pointer v <;> rfl
  refine ⟨fun pointer documents => ?_, fun pointer h => ?_, fun path w hw => ⟨?_, ?_⟩⟩
  · rw [hselect]
    simp only [← resolve_eq_some_iff]
    cases Pointer.resolve pointer v with
    | none => simp
    | some w => simp [eq_comm]
  · have hnone : Pointer.resolve pointer v = none :=
      Option.eq_none_iff_forall_not_mem.mpr fun w hw => h ⟨w, resolve_eq_some_iff.mp hw⟩
    rw [hselect, hnone, Option.elim_none]
  · rw [hselect, resolve_ofPath hw, Option.elim_some]
  · exact fun other x hx hne h => hne (path_eq_of_ofPath hx hw h)

def signposts : Json :=
  .object [("~1", .array [.null, .object [("", .bool true)]]), ("/", .string "one"), ("01", .null)]

/-- The token `~01` is that of `~1` and not of a slash. A place with a zero in front is none, and
the name with one is. -/
theorem select_named_signposts :
    at? [.member "~1", .item 1, .member ""] signposts = some (.bool true) ∧
      at? [.member "/"] signposts = some (.string "one") ∧
      select Filter.language { pointer := some "/~01/1/" } "a.json" signposts = .ok [.bool true] ∧
      select Filter.language { pointer := some "/~1" } "a.json" signposts = .ok [.string "one"] ∧
      select Filter.language { pointer := some "/~01/01" } "a.json" signposts =
        .error (.unresolved "/~01/01" "a.json") := by
  have hdeep : at? [.member "~1", .item 1, .member ""] signposts = some (.bool true) := rfl
  have hflat : at? [.member "/"] signposts = some (.string "one") := rfl
  obtain ⟨-, hrefused, hpaths⟩ := select_named Filter.language {} "a.json" signposts
  refine ⟨hdeep, hflat, (hpaths _ _ hdeep).1, (hpaths _ _ hflat).1, hrefused "/~01/01" ?_⟩
  rintro ⟨w, hw⟩
  cases resolve_eq_some_iff.mpr hw

end Command

end SchemaByExample
