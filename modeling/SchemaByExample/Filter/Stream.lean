/-! Sequences whose later items are computed when they are asked for. -/
namespace SchemaByExample.Filter

inductive Stream (α : Type) where
  | nil
  | one (x : α)
  | cons (x : α) (rest : Unit → Stream α)

namespace Stream

variable {α β σ ε : Type}

instance : Inhabited (Stream α) := ⟨.nil⟩

def append : Stream α → (Unit → Stream α) → Stream α
  | .nil, next => next ()
  | .one x, next => .cons x next
  | .cons x rest, next => .cons x fun _ => append (rest ()) next

/-- The items that `f` gives for each item, in order. -/
def bind : Stream α → (α → Stream β) → Stream β
  | .nil, _ => .nil
  | .one x, f => f x
  | .cons x rest, f =>
    match f x with
    | .nil => bind (rest ()) f
    | .one y => .cons y fun _ => bind (rest ()) f
    | .cons y more => .cons y fun _ => append (more ()) fun _ => bind (rest ()) f

def map (f : α → β) (s : Stream α) : Stream β := bind s fun x => .one (f x)

def ofList : List α → Stream α
  | [] => .nil
  | [x] => .one x
  | x :: rest => .cons x fun _ => ofList rest

def head? : Stream α → Option α
  | .nil => none
  | .one x => some x
  | .cons x _ => some x

/-- The first items, a number of them; no more are computed. -/
def take : Nat → Stream α → Stream α
  | 0, _ => .nil
  | _ + 1, .nil => .nil
  | _ + 1, .one x => .one x
  | 1, .cons x _ => .one x
  | n + 2, .cons x rest => .cons x fun _ => take (n + 1) (rest ())

/-- Folds the items into a state until a step fails. -/
def fold (f : σ → α → Except ε σ) : Stream α → σ → Except ε σ
  | .nil, s => .ok s
  | .one x, s => f s x
  | .cons x rest, s =>
    match f s x with
    | .ok s => fold f (rest ()) s
    | .error e => .error e

end Stream

end SchemaByExample.Filter
