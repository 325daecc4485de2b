import SchemaByExample.Shape.Basic

/-! Trees that agree up to the order of children. -/
namespace SchemaByExample.Shape

mutual

/-- Whether two trees are equal up to the order of children at every depth. -/
def agrees : Shape → Shape → Bool
  | ⟨kind, children, required, minLength, uniqueItems, minItems⟩, t =>
    kind == t.kind && required == t.required && minLength == t.minLength &&
      uniqueItems == t.uniqueItems && minItems == t.minItems &&
      children.length == t.children.length && childrenAgree children t.children

def childrenAgree : List (String × Shape) → List (String × Shape) → Bool
  | [], _ => true
  | (k, s) :: rest, others =>
    (match Members.find? k others with
      | some t => agrees s t
      | none => false) && childrenAgree rest others

end

theorem childrenAgree_iff {children others : List (String × Shape)} :
    childrenAgree children others = true ↔
      ∀ c ∈ children, ∃ t, Members.find? c.1 others = some t ∧ agrees c.2 t = true := by
  induction children with
  | nil => simp [childrenAgree]
  | cons c rest ih =>
    obtain ⟨k, s⟩ := c
    rw [childrenAgree, Bool.and_eq_true, ih, List.forall_mem_cons]
    refine and_congr_left fun _ => ?_
    cases Members.find? k others <;> simp

structure Agreement (s t : Shape) : Prop where
  kind : s.kind = t.kind
  required : s.required = t.required
  minLength : s.minLength = t.minLength
  uniqueItems : s.uniqueItems = t.uniqueItems
  minItems : s.minItems = t.minItems
  length : s.children.length = t.children.length
  children : ∀ c ∈ s.children, ∃ t', Members.find? c.1 t.children = some t' ∧
    agrees c.2 t' = true

theorem agrees_iff {s t : Shape} : agrees s t = true ↔ Agreement s t := by
  obtain ⟨kind, children, required, minLength, uniqueItems, minItems⟩ := s
  simp only [agrees, Bool.and_eq_true, beq_iff_eq, childrenAgree_iff]
  constructor
  · rintro ⟨⟨⟨⟨⟨⟨hk, hr⟩, hl⟩, hu⟩, hm⟩, hn⟩, hc⟩
    exact ⟨hk, hr, hl, hu, hm, hn, hc⟩
  · intro h
    exact ⟨⟨⟨⟨⟨⟨h.kind, h.required⟩, h.minLength⟩, h.uniqueItems⟩, h.minItems⟩, h.length⟩,
      h.children⟩

/-- Trees without children that agree are equal. -/
theorem eq_of_agrees {s t : Shape} (h : agrees s t = true) (hs : s.children = [])
    (ht : t.children = []) : s = t := by
  obtain ⟨hk, hr, hl, hu, hm, -, -⟩ := agrees_iff.mp h
  cases s
  cases t
  simp_all

/-- A tree without children agrees with itself. -/
theorem agrees_self {s : Shape} (h : s.children = []) : agrees s s = true := by
  refine agrees_iff.mpr ⟨rfl, rfl, rfl, rfl, rfl, rfl, ?_⟩
  rw [h]
  exact List.forall_mem_nil _

end SchemaByExample.Shape
