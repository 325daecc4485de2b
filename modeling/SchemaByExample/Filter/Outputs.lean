import SchemaByExample.Filter.Fault
import SchemaByExample.Filter.Stream

/-! The outputs of a filter, one after the other. A fault is an output too: it passes
through all that follows, and what comes behind it is still there. -/
namespace SchemaByExample.Filter

abbrev Outputs (α : Type) := Stream (Except Fault α)

namespace Outputs

variable {α β σ : Type}

def just (x : α) : Outputs α := .one (.ok x)

def fail (e : Fault) : Outputs α := .one (.error e)

def ofExcept (r : Except Fault α) : Outputs α := .one r

/-- The output that there may be. -/
def ofExcept? : Except Fault (Option α) → Outputs α
  | .ok none => .nil
  | .ok (some x) => .just x
  | .error e => .fail e

def ofList (xs : List α) : Outputs α := Stream.ofList (xs.map .ok)

def andThen (s : Outputs α) (f : α → Outputs β) : Outputs β :=
  s.bind fun
    | .ok x => f x
    | .error e => fail e

def map (f : α → β) (s : Outputs α) : Outputs β := s.andThen fun x => just (f x)

def gather (s : Outputs α) : Except Fault (List α) :=
  (s.fold (fun acc x => x.map (· :: acc)) []).map List.reverse

def first? (s : Outputs α) : Except Fault (Option α) :=
  match s.head? with
  | none => .ok none
  | some (.ok x) => .ok (some x)
  | some (.error e) => .error e

/-- The outputs before the jump to a label. -/
def untilJump (label : Nat) : Outputs α → Outputs α
  | .nil => .nil
  | .one x => if jumps x then .nil else .one x
  | .cons x rest => if jumps x then .nil else .cons x fun _ => untilJump label (rest ())
where
  jumps : Except Fault α → Bool
    | .error (.jump l) => l == label
    | _ => false

/-- The outputs up to the first fault, and what a handler makes of it; a jump stays. -/
def handle (handler : Value → Outputs α) : Outputs α → Outputs α
  | .nil => .nil
  | .one x => settle x
  | .cons (.ok x) rest => .cons (.ok x) fun _ => handle handler (rest ())
  | .cons (.error e) _ => settle (.error e)
where
  settle : Except Fault α → Outputs α
    | .ok x => just x
    | .error e =>
      match e.caught? with
      | some v => handler v
      | none => fail e

/-- What a function makes of each output of the first and each of the second, those of the
first in the outer place. A fault of the first is found only if the second has an output. -/
def cross (l : Outputs α) (r : Unit → Outputs β) (f : α → β → Except Fault σ) : Outputs σ :=
  l.bind fun x => (r ()).bind fun y => .one (do f (← x) (← y))

def last? (s : Outputs α) : Except Fault (Option α) :=
  s.fold (fun _ x => x.map some) none

/-- Folds the outputs into the outputs of a step, depth first. -/
def foldAll (step : σ → α → Outputs σ) : Outputs α → σ → Outputs σ
  | .nil, s => just s
  | .one (.ok x), s => step s x
  | .one (.error e), _ => fail e
  | .cons (.error e) _, _ => fail e
  | .cons (.ok x) rest, s =>
    match step s x with
    | .one (.ok s) => foldAll step (rest ()) s
    | outs => outs.andThen fun s => foldAll step (rest ()) s

/-- Every state of such a fold, each before those that follow from it. -/
def scanAll (step : σ → α → Outputs σ) (give : σ → α → Outputs β) :
    Outputs α → σ → Outputs β
  | .nil, _ => .nil
  | .one (.ok x), s => (step s x).andThen fun s => give s x
  | .one (.error e), _ => fail e
  | .cons (.error e) _, _ => fail e
  | .cons (.ok x) rest, s => (step s x).andThen fun s =>
    (give s x).append fun _ => scanAll step give (rest ()) s

end Outputs

end SchemaByExample.Filter
