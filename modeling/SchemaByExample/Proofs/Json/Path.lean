import SchemaByExample.Json.Pointer
import SchemaByExample.Proofs.Json.IntegerLiteral

/-! Paths into documents, and the pointers that are written for them. A name is escaped in its
pointer, so that it is found again whatever characters it has. -/
namespace SchemaByExample

inductive Json.Step where
  | member (name : String)
  | item (place : Nat)
  deriving DecidableEq

namespace Json

def at? : List Step → Json → Option Json
  | [], v => some v
  | .member k :: path, .object members => (Members.find? k members).bind (at? path)
  | .item i :: path, .array items => items[i]?.bind (at? path)
  | _ :: _, _ => none

inductive StepsTo : Step → Json → Json → Prop
  | member {k : String} {members : List (String × Json)} {v : Json} :
      Members.find? k members = some v → StepsTo (.member k) (.object members) v
  | item {i : Nat} {items : List Json} {v : Json} :
      items[i]? = some v → StepsTo (.item i) (.array items) v

theorem exists_stepsTo {s : Step} {path : List Step} {v w : Json}
    (h : at? (s :: path) v = some w) : ∃ u, StepsTo s v u ∧ at? path u = some w := by
  cases s with
  | member k =>
    cases v with
    | object members =>
      obtain ⟨u, hu, hw⟩ := Option.bind_eq_some_iff.mp h
      exact ⟨u, .member hu, hw⟩
    | _ => cases h
  | item i =>
    cases v with
    | array items =>
      obtain ⟨u, hu, hw⟩ := Option.bind_eq_some_iff.mp h
      exact ⟨u, .item hu, hw⟩
    | _ => cases h

end Json

namespace Text

theorem split_of_notMem {sep : Char} {cs : List Char} (h : sep ∉ cs) : split sep cs = [cs] := by
  induction cs with
  | nil => rfl
  | cons c cs ih =>
    have hc : c ≠ sep := fun he => h (he ▸ List.mem_cons_self)
    have hcs : sep ∉ cs := fun hm => h (List.mem_cons_of_mem c hm)
    rw [split, if_neg hc, ih hcs]

/-- A piece without the separator is the first piece. -/
theorem split_append {sep : Char} {cs : List Char} (h : sep ∉ cs) (rest : List Char) :
    split sep (cs ++ sep :: rest) = cs :: split sep rest := by
  induction cs with
  | nil => rw [List.nil_append, split, if_pos rfl]
  | cons c cs ih =>
    have hc : c ≠ sep := fun he => h (he ▸ List.mem_cons_self)
    have hcs : sep ∉ cs := fun hm => h (List.mem_cons_of_mem c hm)
    rw [List.cons_append, split, if_neg hc, ih hcs]

/-- The pieces of a text do not hold the separator, and the text is the pieces with one between
any two. -/
theorem exists_split (sep : Char) (cs : List Char) :
    ∃ p ps, split sep cs = p :: ps ∧ (∀ q ∈ p :: ps, sep ∉ q) ∧
      cs = p ++ ps.flatMap (sep :: ·) := by
  induction cs with
  | nil => exact ⟨[], [], rfl, by simp, rfl⟩
  | cons c cs ih =>
    obtain ⟨p, ps, hsplit, hfree, hcs⟩ := ih
    by_cases hc : c = sep
    · subst hc
      exact ⟨[], p :: ps, by rw [split, if_pos rfl, hsplit],
        List.forall_mem_cons.mpr ⟨by simp, hfree⟩, by rw [hcs]; rfl⟩
    · obtain ⟨hp, hps⟩ := List.forall_mem_cons.mp hfree
      refine ⟨c :: p, ps, by rw [split, if_neg hc, hsplit],
        List.forall_mem_cons.mpr ⟨?_, hps⟩, by rw [hcs]; rfl⟩
      exact List.not_mem_cons_of_ne_of_not_mem (Ne.symm hc) hp

theorem split_flatMap {sep : Char} {p : List Char} {ps : List (List Char)}
    (h : ∀ q ∈ p :: ps, sep ∉ q) : split sep (p ++ ps.flatMap (sep :: ·)) = p :: ps := by
  induction ps generalizing p with
  | nil =>
    rw [List.flatMap_nil, List.append_nil, split_of_notMem (h p List.mem_cons_self)]
  | cons q ps ih =>
    obtain ⟨hp, hps⟩ := List.forall_mem_cons.mp h
    rw [List.flatMap_cons, List.cons_append, split_append hp, ih hps]

/-- Pieces behind separators are told by the text they make. -/
theorem flatMap_injective {sep : Char} {ps qs : List (List Char)} (hp : ∀ p ∈ ps, sep ∉ p)
    (hq : ∀ q ∈ qs, sep ∉ q) (h : ps.flatMap (sep :: ·) = qs.flatMap (sep :: ·)) : ps = qs := by
  have hcut := congrArg (split sep) h
  have hnil : sep ∉ ([] : List Char) := List.not_mem_nil
  have hps := split_flatMap (List.forall_mem_cons.mpr ⟨hnil, hp⟩)
  have hqs := split_flatMap (List.forall_mem_cons.mpr ⟨hnil, hq⟩)
  rw [List.nil_append] at hps hqs
  rw [hps, hqs] at hcut
  exact (List.cons.inj hcut).2

end Text

namespace Pointer

open Json

def escapeChar (c : Char) : List Char :=
  if c = '~' then ['~', '0'] else if c = '/' then ['~', '1'] else [c]

def escape (name : List Char) : List Char := name.flatMap escapeChar

def token : Step → List Char
  | .member k => escape k.toList
  | .item i => Nat.toDigits 10 i

def ofPath (path : List Step) : String := String.ofList (path.flatMap fun s => '/' :: token s)

section Unescape

variable (mark value : Char)

theorem unescapeOne_cons {c : Char} (h : c ≠ '~') (rest : List Char) :
    unescapeOne mark value (c :: rest) = c :: unescapeOne mark value rest := by
  cases rest with
  | nil =>
    rw [unescapeOne]
    simp [h]
  | cons d rest =>
    rw [unescapeOne]
    simp [h]

theorem unescapeOne_mark (rest : List Char) :
    unescapeOne mark value ('~' :: mark :: rest) = value :: unescapeOne mark value rest := by
  rw [unescapeOne, if_pos rfl]

theorem unescapeOne_other {c : Char} (hc : c ≠ mark) (h : c ≠ '~') (rest : List Char) :
    unescapeOne mark value ('~' :: c :: rest) = '~' :: c :: unescapeOne mark value rest := by
  rw [unescapeOne, if_neg hc, unescapeOne_cons mark value h]

theorem unescapeOne_of_notMem {cs : List Char} (h : '~' ∉ cs) :
    unescapeOne mark value cs = cs := by
  induction cs with
  | nil => rw [unescapeOne]
  | cons c cs ih =>
    have hc : c ≠ '~' := fun he => h (he ▸ List.mem_cons_self)
    have hcs : '~' ∉ cs := fun hm => h (List.mem_cons_of_mem c hm)
    rw [unescapeOne_cons mark value hc, ih hcs]

end Unescape

def escapeTilde (c : Char) : List Char := if c = '~' then ['~', '0'] else [c]

theorem unescapeOne_escape (name : List Char) :
    unescapeOne '1' '/' (escape name) = name.flatMap escapeTilde := by
  induction name with
  | nil => rfl
  | cons c name ih =>
    simp only [escape, List.flatMap_cons] at ih ⊢
    by_cases ht : c = '~'
    · subst ht
      simp only [escapeChar, escapeTilde, if_true, List.cons_append, List.nil_append]
      rw [unescapeOne_other _ _ (by decide) (by decide), ih]
    · by_cases hs : c = '/'
      · subst hs
        simp only [escapeChar, escapeTilde, if_neg ht, if_true, List.cons_append, List.nil_append]
        rw [unescapeOne_mark, ih]
      · simp only [escapeChar, escapeTilde, if_neg ht, if_neg hs, List.cons_append,
          List.nil_append]
        rw [unescapeOne_cons _ _ ht, ih]

theorem unescapeOne_escapeTilde (name : List Char) :
    unescapeOne '0' '~' (name.flatMap escapeTilde) = name := by
  induction name with
  | nil => rfl
  | cons c name ih =>
    rw [List.flatMap_cons]
    by_cases ht : c = '~'
    · subst ht
      simp only [escapeTilde, if_true, List.cons_append, List.nil_append]
      rw [unescapeOne_mark, ih]
    · simp only [escapeTilde, if_neg ht, List.cons_append, List.nil_append]
      rw [unescapeOne_cons _ _ ht, ih]

/-- Slashes come back first, so that the tildes that come back after them are not read again. -/
theorem unescape_escape (name : List Char) : unescape (escape name) = name := by
  rw [unescape, unescapeOne_escape, unescapeOne_escapeTilde]

theorem unescape_of_notMem {cs : List Char} (h : '~' ∉ cs) : unescape cs = cs := by
  rw [unescape, unescapeOne_of_notMem _ _ h, unescapeOne_of_notMem _ _ h]

theorem notMem_toDigits {c : Char} (h : c.isDigit = false) (n : Nat) :
    c ∉ Nat.toDigits 10 n := by
  intro hc
  rw [Literal.isDigit_of_mem hc] at h
  cases h

theorem slash_notMem_token (s : Step) : '/' ∉ token s := by
  cases s with
  | item i => exact notMem_toDigits rfl i
  | member k =>
    intro h
    obtain ⟨c, -, hc⟩ := List.mem_flatMap.mp h
    rw [escapeChar] at hc
    split at hc
    · simp at hc
    · split at hc
      · simp at hc
      · rename_i hs
        exact hs (List.mem_singleton.mp hc).symm

theorem place?_toDigits (n : Nat) : place? (Nat.toDigits 10 n) = some n := by
  by_cases hn : n = 0
  · subst hn
    rfl
  · obtain ⟨c, cs, hc, -⟩ := Literal.toDigits_head n
    have hzero : c ≠ '0' := Literal.head_toDigits hn hc
    have hall : (c :: cs).all Char.isDigit = true := by
      rw [List.all_eq_true, ← hc]
      exact fun d hd => Literal.isDigit_of_mem hd
    have hvalue := Literal.ofDigits_toDigits n
    rw [hc] at hvalue ⊢
    rw [place?, if_pos ⟨hzero, hall⟩]
    · exact congrArg some hvalue
    · simp [hzero]

/-- The tokens of a path lead where the path leads. -/
theorem follow_tokens {path : List Step} {v w : Json} (h : at? path v = some w) :
    follow (path.map token) v = some w := by
  induction path generalizing v with
  | nil => exact h
  | cons s path ih =>
    obtain ⟨u, hu, hw⟩ := exists_stepsTo h
    cases hu with
    | member hu =>
      rw [List.map_cons, token, follow, unescape_escape, String.ofList_toList, hu]
      exact ih hw
    | item hu =>
      rw [List.map_cons, token, follow, unescape_of_notMem (notMem_toDigits rfl _),
        place?_toDigits]
      simp only [bind, Option.bind, hu]
      exact ih hw

theorem split_tokens (s : Step) (path : List Step) :
    Text.split '/' (token s ++ path.flatMap fun t => '/' :: token t) =
      token s :: path.map token := by
  have hfree : ∀ t ∈ (s :: path).map token, '/' ∉ t :=
    List.forall_mem_map.mpr fun t _ => slash_notMem_token t
  have hsplit := Text.split_flatMap (List.map_cons ▸ hfree)
  rwa [List.flatMap_map] at hsplit

/-- The pointer for a path names the value that the path leads to. -/
theorem resolve_ofPath {path : List Step} {v w : Json} (h : at? path v = some w) :
    resolve (ofPath path) v = some w := by
  cases path with
  | nil => exact h
  | cons s path =>
    rw [resolve, ofPath, String.toList_ofList, List.flatMap_cons, List.cons_append]
    simp only [split_tokens]
    have hfollow : follow ((s :: path).map token) v = some w := follow_tokens h
    exact hfollow

end Pointer

end SchemaByExample
