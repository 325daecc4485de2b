import SchemaByExample.Proofs.Json.ExactText
import SchemaByExample.Proofs.Json.WrittenNesting

/-! Compact text determines its value. The first character tells the form of a value, quotes end
a string, and what stands behind a value ends a number; so a text at the front determines its
value and what follows. -/
namespace SchemaByExample.Json

open Literal

/-- Two fronts of characters of a class that stop before others outside of it are the same. -/
theorem append_inj_of_stops {p : Char → Prop} {xs ys as bs : List Char} (hx : ∀ c ∈ xs, p c)
    (hy : ∀ c ∈ ys, p c) (ha : ∀ c ∈ as.head?, ¬p c) (hb : ∀ c ∈ bs.head?, ¬p c)
    (h : xs ++ as = ys ++ bs) : xs = ys ∧ as = bs := by
  induction xs generalizing ys with
  | nil =>
    cases ys with
    | nil => exact ⟨rfl, h⟩
    | cons y ys =>
      obtain rfl : as = y :: (ys ++ bs) := h
      exact absurd (hy y List.mem_cons_self) (ha y rfl)
  | cons x xs ih =>
    cases ys with
    | nil =>
      obtain rfl : x :: (xs ++ as) = bs := h
      exact absurd (hx x List.mem_cons_self) (hb x rfl)
    | cons y ys =>
      obtain ⟨rfl, hrest⟩ := List.cons.inj h
      obtain ⟨rfl, rfl⟩ := ih (fun c hc => hx c (List.mem_cons_of_mem x hc))
        (fun c hc => hy c (List.mem_cons_of_mem x hc)) hrest
      exact ⟨rfl, rfl⟩

inductive Form where
  | null | bool | number | string | array | object
  deriving DecidableEq

def form : Json → Form
  | .null => .null
  | .bool _ => .bool
  | .number _ => .number
  | .string _ => .string
  | .array _ => .array
  | .object _ => .object

def formOf (c : Char) : Form :=
  if c = 'n' then .null
  else if c = 't' ∨ c = 'f' then .bool
  else if c = '"' then .string
  else if c = '[' then .array
  else if c = '\x7b' then .object
  else .number

theorem formOf_numeric {c : Char} (h : c = '-' ∨ c.isDigit = true) :
    formOf c = .number ∧ c ≠ ']' := by
  obtain rfl | hd := h
  · decide
  · have hne {x : Char} (hx : x.isDigit = false) : c ≠ x := by
      rintro rfl
      rw [hd] at hx
      cases hx
    refine ⟨?_, hne rfl⟩
    have hword : ¬(c = 't' ∨ c = 'f') := not_or.mpr ⟨hne rfl, hne rfl⟩
    rw [formOf, if_neg (hne rfl), if_neg hword, if_neg (hne rfl), if_neg (hne rfl),
      if_neg (hne rfl)]

/-- The first character tells the form, and no value begins like the end of an array. -/
theorem exists_formOf (d : Nat) (v : Json) :
    ∃ c cs, render .compact d v = c :: cs ∧ formOf c = v.form ∧ c ≠ ']' := by
  cases v with
  | null => exact ⟨_, _, by rw [render]; rfl, by decide⟩
  | bool b => cases b <;> exact ⟨_, _, by rw [render]; rfl, rfl, by decide⟩
  | number n =>
    obtain ⟨c, cs, hc, hd⟩ := numberChars_head n
    exact ⟨c, cs, by rw [render, hc], formOf_numeric hd⟩
  | string s => exact ⟨_, _, by rw [render, quote]; rfl, rfl, by decide⟩
  | array items =>
    cases items <;> exact ⟨_, _, by simp only [render, List.cons_append]; rfl, rfl, by decide⟩
  | object members =>
    cases members <;> exact ⟨_, _, by simp only [render, List.cons_append]; rfl, rfl, by decide⟩

/-- Texts that begin alike are of values of one form. -/
theorem form_eq_of_append {d e : Nat} {v w : Json} {as bs : List Char}
    (h : render .compact d v ++ as = render .compact e w ++ bs) : v.form = w.form := by
  obtain ⟨c, cs, hc, hv, -⟩ := exists_formOf d v
  obtain ⟨c', cs', hc', hw, -⟩ := exists_formOf e w
  rw [hc, hc'] at h
  rw [← hv, ← hw, (List.cons.inj h).1]

theorem render_append_ne (d : Nat) (v : Json) (as bs : List Char) :
    render .compact d v ++ as ≠ ']' :: bs := by
  obtain ⟨c, cs, hc, -, hne⟩ := exists_formOf d v
  rw [hc]
  exact fun h => hne (List.cons.inj h).1

/-- The text of the items in an array is determined by the text of the array. -/
theorem renderItems_eq_of_array {d e : Nat} {items others : List Json} {as bs : List Char}
    (h : render .compact d (.array items) ++ as = render .compact e (.array others) ++ bs) :
    renderItems .compact d items ++ ']' :: as = renderItems .compact e others ++ ']' :: bs := by
  cases items <;> cases others <;>
    simp only [render, renderItems, Spacing.compact, List.nil_append, List.append_nil,
      List.cons_append, List.append_assoc, List.cons.injEq, true_and] at h ⊢
  · exact h
  · exact (render_append_ne _ _ _ _ h.symm).elim
  · exact (render_append_ne _ _ _ _ h).elim
  · exact h

theorem renderMembers_eq_of_object {d e : Nat} {members others : List (String × Json)}
    {as bs : List Char}
    (h : render .compact d (.object members) ++ as = render .compact e (.object others) ++ bs) :
    renderMembers .compact d members ++ '\x7d' :: as =
      renderMembers .compact e others ++ '\x7d' :: bs := by
  have hquote (s : String) (cs ds : List Char) : quote s ++ cs ≠ '\x7d' :: ds := by
    intro h
    rw [quote] at h
    exact absurd (List.cons.inj h).1 (by decide)
  cases members <;> cases others <;>
    simp only [render, renderMembers, Spacing.compact, List.nil_append, List.append_nil,
      List.cons_append, List.append_assoc, List.cons.injEq, true_and] at h ⊢
  · exact h
  · exact (hquote _ _ _ h.symm).elim
  · exact (hquote _ _ _ h).elim
  · exact h

def EndsNumber (cs : List Char) : Prop := ∀ c ∈ cs.head?, ¬Numeric c

theorem endsNumber_nil : EndsNumber [] := nofun

theorem endsNumber_cons {c : Char} (h : ¬Numeric c) (cs : List Char) : EndsNumber (c :: cs) := by
  intro d hd
  rwa [← Option.some.inj hd]

theorem endsNumber_items (d : Nat) (items : List Json) (as : List Char) :
    EndsNumber (renderItems .compact d items ++ ']' :: as) := by
  cases items with
  | nil => exact endsNumber_cons (by decide) as
  | cons v rest =>
    rw [renderItems]
    exact endsNumber_cons (by decide) _

theorem endsNumber_members (d : Nat) (members : List (String × Json)) (as : List Char) :
    EndsNumber (renderMembers .compact d members ++ '\x7d' :: as) := by
  cases members with
  | nil => exact endsNumber_cons (by decide) as
  | cons m rest =>
    rw [renderMembers]
    exact endsNumber_cons (by decide) _

mutual

/-- The text of a value at the front determines the value and what stands behind it, if that does
not go on with a number. -/
theorem render_append_inj {d e : Nat} : (v w : Json) → {as bs : List Char} →
    EndsNumber as → EndsNumber bs →
    render .compact d v ++ as = render .compact e w ++ bs → v = w ∧ as = bs
  | .null, w, as, bs, _, _, h => by
    have hform := form_eq_of_append h
    cases w with
    | null => exact ⟨rfl, List.append_cancel_left h⟩
    | _ => cases hform
  | .bool b, w, as, bs, _, _, h => by
    have hform := form_eq_of_append h
    cases w with
    | bool b' =>
      obtain ⟨rfl, rfl⟩ : b = b' ∧ as = bs := by
        cases b <;> cases b' <;> simp_all [render]
      exact ⟨rfl, rfl⟩
    | _ => cases hform
  | .number n, w, as, bs, ha, hb, h => by
    have hform := form_eq_of_append h
    cases w with
    | number m =>
      -- a number has no end of its own: both go on up to what stands behind them
      obtain ⟨hn, rfl⟩ :=
        append_inj_of_stops (numeric_numberChars n) (numeric_numberChars m) ha hb h
      exact ⟨by rw [numberChars_injective hn], rfl⟩
    | _ => cases hform
  | .string s, w, as, bs, _, _, h => by
    have hform := form_eq_of_append h
    cases w with
    | string t =>
      obtain ⟨rfl, rfl⟩ := quote_append_inj h
      exact ⟨rfl, rfl⟩
    | _ => cases hform
  | .array items, w, as, bs, _, _, h => by
    have hform := form_eq_of_append h
    cases w with
    | array others =>
      obtain ⟨rfl, rfl⟩ := renderItems_append_inj items others (renderItems_eq_of_array h)
      exact ⟨rfl, rfl⟩
    | _ => cases hform
  | .object members, w, as, bs, _, _, h => by
    have hform := form_eq_of_append h
    cases w with
    | object others =>
      obtain ⟨rfl, rfl⟩ := renderMembers_append_inj members others (renderMembers_eq_of_object h)
      exact ⟨rfl, rfl⟩
    | _ => cases hform

theorem renderItems_append_inj {d e : Nat} : (items others : List Json) → {as bs : List Char} →
    renderItems .compact d items ++ ']' :: as = renderItems .compact e others ++ ']' :: bs →
      items = others ∧ as = bs
  | [], [], _, _, h => ⟨rfl, (List.cons.inj h).2⟩
  | [], _ :: _, _, _, h => by simp [renderItems] at h
  | _ :: _, [], _, _, h => by simp [renderItems] at h
  | v :: rest, w :: others, as, bs, h => by
    simp only [renderItems, Spacing.compact, List.nil_append, List.cons_append,
      List.append_assoc, List.cons.injEq, true_and] at h
    obtain ⟨rfl, hrest⟩ := render_append_inj v w (endsNumber_items d rest as)
      (endsNumber_items e others bs) h
    obtain ⟨rfl, rfl⟩ := renderItems_append_inj rest others hrest
    exact ⟨rfl, rfl⟩

theorem renderMembers_append_inj {d e : Nat} : (members others : List (String × Json)) →
    {as bs : List Char} →
    renderMembers .compact d members ++ '\x7d' :: as =
      renderMembers .compact e others ++ '\x7d' :: bs → members = others ∧ as = bs
  | [], [], _, _, h => ⟨rfl, (List.cons.inj h).2⟩
  | [], _ :: _, _, _, h => by simp [renderMembers] at h
  | _ :: _, [], _, _, h => by simp [renderMembers] at h
  | (k, v) :: rest, (k', w) :: others, as, bs, h => by
    simp only [renderMembers, Spacing.compact, List.nil_append, List.cons_append,
      List.append_assoc, List.cons.injEq, true_and] at h
    obtain ⟨rfl, hvalue⟩ := quote_append_inj h
    obtain ⟨rfl, hrest⟩ := render_append_inj v w (endsNumber_members d rest as)
      (endsNumber_members e others bs) (List.cons.inj hvalue).2
    obtain ⟨rfl, rfl⟩ := renderMembers_append_inj rest others hrest
    exact ⟨rfl, rfl⟩

end

/-- Compact text determines its value. -/
theorem compact_injective {v w : Json} (h : v.compact = w.compact) : v = w := by
  have hchars : render .compact 0 v ++ [] = render .compact 0 w ++ [] := by
    rw [List.append_nil, List.append_nil]
    exact String.ofList_injective h
  exact (render_append_inj v w endsNumber_nil endsNumber_nil hchars).1

end SchemaByExample.Json
