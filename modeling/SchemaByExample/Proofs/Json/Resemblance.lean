import SchemaByExample.Shape.Kind

/-! Values that differ in the contents of scalars only, and values inside others. -/
namespace SchemaByExample.Json

/-- Scalars of one kind; texts that are no numbers are both empty or both not. -/
structure SameClass (v w : Json) : Prop where
  left : v.isContainer = false
  right : w.isContainer = false
  kind : v.kind? = w.kind?
  empty : v.kind? = some .string → (v = .string "" ↔ w = .string "")

mutual

/-- Values with the same containers and names, whose scalars agree in their classes. -/
inductive Resembles : Json → Json → Prop
  | scalar {v w : Json} : SameClass v w → Resembles v w
  | array {items others : List Json} :
      ResembleItems items others → Resembles (.array items) (.array others)
  | object {members others : List (String × Json)} :
      ResembleMembers members others → Resembles (.object members) (.object others)

inductive ResembleItems : List Json → List Json → Prop
  | nil : ResembleItems [] []
  | cons {v w : Json} {items others : List Json} :
      Resembles v w → ResembleItems items others → ResembleItems (v :: items) (w :: others)

inductive ResembleMembers : List (String × Json) → List (String × Json) → Prop
  | nil : ResembleMembers [] []
  | cons {v w : Json} {members others : List (String × Json)} (k : String) :
      Resembles v w → ResembleMembers members others →
        ResembleMembers ((k, v) :: members) ((k, w) :: others)

end

theorem SameClass.refl {v : Json} (h : v.isContainer = false) : SameClass v v :=
  ⟨h, h, rfl, fun _ => Iff.rfl⟩

mutual

theorem Resembles.refl : (v : Json) → Resembles v v
  | .array items => .array (ResembleItems.refl items)
  | .object members => .object (ResembleMembers.refl members)
  | .null => .scalar (.refl rfl)
  | .bool _ => .scalar (.refl rfl)
  | .number _ => .scalar (.refl rfl)
  | .string _ => .scalar (.refl rfl)

theorem ResembleItems.refl : (items : List Json) → ResembleItems items items
  | [] => .nil
  | v :: rest => .cons (Resembles.refl v) (ResembleItems.refl rest)

theorem ResembleMembers.refl : (members : List (String × Json)) → ResembleMembers members members
  | [] => .nil
  | (k, v) :: rest => .cons k (Resembles.refl v) (ResembleMembers.refl rest)

end

theorem ResembleItems.append {before items others : List Json} (h : ResembleItems items others) :
    ResembleItems (before ++ items) (before ++ others) := by
  induction before with
  | nil => exact h
  | cons v rest ih => exact .cons (Resembles.refl v) ih

theorem ResembleMembers.append {before members others : List (String × Json)}
    (h : ResembleMembers members others) :
    ResembleMembers (before ++ members) (before ++ others) := by
  induction before with
  | nil => exact h
  | cons p rest ih => exact .cons p.1 (Resembles.refl p.2) ih

/-- A document with one place left open, at any depth. -/
inductive Context where
  | hole
  | item (before : List Json) (inner : Context) (after : List Json)
  | member (before : List (String × Json)) (name : String) (inner : Context)
      (after : List (String × Json))

def Context.fill (v : Json) : Context → Json
  | .hole => v
  | .item before inner after => .array (before ++ inner.fill v :: after)
  | .member before name inner after => .object (before ++ (name, inner.fill v) :: after)

/-- Values that resemble each other may replace each other anywhere in a document. -/
theorem Resembles.fill {v w : Json} (h : Resembles v w) (c : Context) :
    Resembles (c.fill v) (c.fill w) := by
  induction c with
  | hole => exact h
  | item before inner after ih => exact .array (.append (.cons ih (.refl after)))
  | member before name inner after ih => exact .object (.append (.cons name ih (.refl after)))

end SchemaByExample.Json
