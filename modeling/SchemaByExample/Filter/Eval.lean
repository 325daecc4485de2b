import SchemaByExample.Filter.Builtins
import SchemaByExample.Filter.Prelude
import SchemaByExample.Filter.Scope

/-! What a term gives for a value. A term can be run for its outputs, or to change the parts of
a value that it leads to. -/
namespace SchemaByExample.Filter

/-- What names stand for. The body of a definition sees what is there at its place and the
definition itself; an argument sees what its caller does. -/
inductive Env where
  | empty
  | binding (name : String) (value : Value) (rest : Env)
  | definition (d : Definition) (rest : Env)
  | argument (name : String) (body : Term) (caller : Env) (rest : Env)
  | label (name : String) (number : Nat) (rest : Env)

/-- A filter that a name stands for, with what its names stand for. -/
inductive Callee where
  | definition (d : Definition) (env : Env)
  | argument (body : Term) (env : Env)

namespace Env

def binding? (name : String) : Env → Option Value
  | .empty => none
  | .binding n v rest => if n = name then some v else binding? name rest
  | .definition _ rest => binding? name rest
  | .argument _ _ _ rest => binding? name rest
  | .label _ _ rest => binding? name rest

def label? (name : String) : Env → Option Nat
  | .empty => none
  | .binding _ _ rest => label? name rest
  | .definition _ rest => label? name rest
  | .argument _ _ _ rest => label? name rest
  | .label n i rest => if n = name then some i else label? name rest

def filter? (name : String) (arity : Nat) : Env → Option Callee
  | .empty => none
  | .binding _ _ rest => filter? name arity rest
  | .definition d rest =>
    if d.name = name ∧ d.parameters.length = arity then some (.definition d (.definition d rest))
    else filter? name arity rest
  | .argument n t caller rest =>
    if n = name ∧ arity = 0 then some (.argument t caller) else filter? name arity rest
  | .label _ _ rest => filter? name arity rest

/-- Definitions, the later ones in front of the earlier. -/
def ofDefinitions (ds : List Definition) : Env :=
  ds.foldl (fun env d => .definition d env) .empty

end Env

namespace Eval

variable {α β : Type}

/-- The selectors of steps, for all outputs of their terms, those of the first step in the
outermost place. -/
def selectors (run : Term → Outputs Value) : List Step → Outputs (List (Selector × Bool))
  | [] => .just []
  | .key k optional :: rest =>
    (run k).andThen fun k => (selectors run rest).map ((.key k, optional) :: ·)
  | .slice none none optional :: rest => (selectors run rest).map ((.all, optional) :: ·)
  | .slice start stop optional :: rest =>
    (bound start).andThen fun start => (bound stop).andThen fun stop =>
      (selectors run rest).map ((.slice start stop, optional) :: ·)
where
  bound : Option Term → Outputs (Option Value)
    | none => .just none
    | some t => (run t).map some

def follow : List (Selector × Bool) → Value → Outputs Value
  | [], v => .just v
  | (s, optional) :: rest, v =>
    match s.parts v with
    | .ok xs => (Outputs.ofList xs).andThen (follow rest)
    | .error e => if optional then .nil else .fail e

/-- Changes the parts of a value that selectors lead to. -/
def updateAlong (f : Value → Outputs Value) :
    List (Selector × Bool) → Value → Except Fault Value
  | [], v => (f v).first?.map fun w => w.getD v
  | [(s, optional)], v => s.update optional f v
  | (s, optional) :: rest, v =>
    s.update optional (fun w => .ofExcept (updateAlong f rest w)) v

mutual

/-- Binds the names of a pattern to the parts of a value. -/
def bindPattern (run : Term → Value → Outputs Value) (v : Value) : Pattern → Env → Outputs Env
  | .binding x, env => .just (.binding x v env)
  | .array items, env => bindItems run v 0 items env
  | .object members, env => bindMembers run v members env

def bindItems (run : Term → Value → Outputs Value) (v : Value) :
    Nat → List Pattern → Env → Outputs Env
  | _, [], env => .just env
  | i, p :: rest, env =>
    (Outputs.ofExcept (Selector.part v (.ofNat i))).andThen fun x =>
      (bindPattern run x p env).andThen fun env => bindItems run v (i + 1) rest env

def bindMembers (run : Term → Value → Outputs Value) (v : Value) :
    List PatternMember → Env → Outputs Env
  | [], env => .just env
  | .mk k p :: rest, env =>
    (run k v).andThen fun k =>
      (Outputs.ofExcept (Selector.part v k)).andThen fun x =>
        (bindPattern run x p env).andThen fun env => bindMembers run v rest env

end

/-- Binds parameters to arguments: those for values to each output in turn. -/
def bindArguments (run : Term → Outputs Value) (caller : Env) :
    List String → List Term → Env → Outputs Env
  | p :: ps, t :: ts, env =>
    if p.startsWith "$" then
      (run t).andThen fun x => bindArguments run caller ps ts (.binding p x env)
    else bindArguments run caller ps ts (.argument p t caller env)
  | _, _, env => .just env

def combinations (run : Term → Outputs Value) : List Term → Outputs (List Value)
  | [] => .just []
  | t :: rest => (run t).andThen fun x => (combinations run rest).map (x :: ·)

/-- The sums of the outputs of several parts, for all combinations. -/
def sum (zero : Value) : List (Unit → Outputs Value) → Outputs Value
  | [] => .just zero
  | p :: rest => rest.foldl (fun l r => l.cross r (Value.calculate .add)) (p ())

/-- The texts of a string. A format writes the values that it holds. -/
def textOf (run : Term → Outputs Value) (write : Value → Outputs Value)
    (pieces : List TextPiece) : Outputs Value :=
  sum (.string "") (pieces.map fun p _ =>
    match p with
    | .text s => .just (.string s)
    | .term t => (run t).andThen write)

def memberOf (run : Term → Outputs Value) : Entry → Outputs Value
  | .mk k t => (run k).cross (fun _ => run (t.getD (.member k))) fun k v => do
    return .object [(← k.asString, v)]

def objectOf (run : Term → Outputs Value) (entries : List Entry) : Outputs Value :=
  sum (.object []) (entries.map fun e _ => memberOf run e)

/-- The outputs that count as true; a fault does. -/
def trueOnes : Outputs Value → Outputs Value
  | .nil => .nil
  | .one (.ok v) => if v.isTrue then .one (.ok v) else .nil
  | .one (.error e) => .one (.error e)
  | .cons (.ok v) rest =>
    if v.isTrue then .cons (.ok v) fun _ => trueOnes (rest ()) else trueOnes (rest ())
  | .cons (.error e) rest => .cons (.error e) fun _ => trueOnes (rest ())

/-- The true outputs of the first, or all outputs of the second if there are none. -/
def orElse (l : Outputs Value) (r : Unit → Outputs Value) : Outputs Value :=
  match trueOnes l with
  | .nil => r ()
  | s => s

/-- The items of an array with the keys that a filter gives them. -/
def keyed (run : Value → Outputs Value) (v : Value) : Except Fault (List (Value × Value)) := do
  (← v.asArray).mapM fun x => do return (.array (← (run x).gather), x)

/-- A number literal: an integer if it is written as one that a signed word holds. -/
def literal (text : String) : Value :=
  if text.toList.all Char.isDigit then JsonText.ofDigits false text else .literal text

/-- Runs a function that is not defined by a filter. -/
def builtin (run : Term → Value → Outputs Value) (name : String) (args : List Term)
    (v : Value) : Outputs Value :=
  match Builtin.find? name args.length with
  | some f => (combinations (fun t => run t v) args).andThen (f v)
  | none =>
    match name, args with
    | "first", [t] => (run t v).take 1
    | "last", [t] => .ofExcept? (run t v).last?
    | "limit", [n, t] => (run n v).andThen fun n =>
      match n.asInt with
      | .ok n => if n ≤ 0 then .nil else (run t v).take n.toNat
      | .error e => .fail e
    | name, [t] =>
      match Builtin.keyedTable.lookup name with
      | some f => .ofExcept ((keyed (run t) v).map f)
      | none => .fail .stopped
    | _, _ => .fail .stopped

/-- Functions lead to no part of their input, and those that fail do so here as well. -/
def updateBuiltin (run : Term → Outputs Value) (name : String) (args : List Term)
    (v : Value) : Outputs Value :=
  if (Builtin.find? name args.length).isSome then
    (combinations run args).foldAll (fun w xs =>
      .fail (if name == "error" then .value (xs.headD w) else .notPath)) v
  else .fail .notPath

/-- A binary operator that only computes, on all outputs of its operands; those of the left
one are in the outer place. -/
def operate (run : Term → Outputs Value) (op : Operator) (l r : Term) : Outputs Value :=
  let pairs (f : Value → Value → Except Fault Value) : Outputs Value :=
    (run l).cross (fun _ => run r) f
  let logic (settled : Bool) : Outputs Value :=
    (run l).andThen fun x =>
      if x.isTrue == settled then .just (.bool settled)
      else (run r).map fun y => .bool y.isTrue
  match op with
  | .arithmetic op => pairs (Value.calculate op)
  | .compare c => pairs fun x y => .ok (.bool (c.holds (Value.order x y)))
  | .or => logic true
  | .and => logic false
  | _ => .nil

end Eval

open Eval

mutual

/-- Runs a term for a value. `labels` is the number of labels around it. Only a number of
nested steps is taken, the first argument. -/
def eval : Nat → Env → Nat → Term → Value → Outputs Value
  | 0, _, _, _, _ => .fail .stopped
  | fuel + 1, env, labels, t, v =>
    let run (t : Term) (v : Value) : Outputs Value := eval fuel env labels t v
    let here (t : Term) : Outputs Value := run t v
    match t with
    | .identity => .just v
    | .descend => here Term.descent
    | .number n => .just (literal n)
    | .string format pieces =>
      let write (x : Value) : Outputs Value :=
        match format with
        | some f => run (.call f []) x
        | none => .just (.string x.plain)
      textOf here write pieces
    | .array none => .just (.array [])
    | .array (some t) => .ofExcept ((here t).gather.map .array)
    | .object entries => objectOf here entries
    | .negate t => (here t).andThen fun x => .ofExcept x.negated
    | .binary op l r =>
      match op with
      | .pipe => (here l).andThen (run r)
      | .comma => (here l).append fun _ => here r
      | .alternative => orElse (here l) fun _ => here r
      | .assign => (here r).andThen fun x => update fuel env labels l v fun _ => .just x
      | .update => update fuel env labels l v (run r)
      | .updateBy op => (here r).andThen fun x =>
        update fuel env labels l v fun w => .ofExcept (Value.calculate op w x)
      | .updateMissing => (here r).andThen fun x =>
        update fuel env labels l v fun w => .just (if w.isTrue then w else x)
      | op => operate here op l r
    | .bind source pattern body =>
      ((here source).andThen fun x => bindPattern run x pattern env).andThen fun env =>
        eval fuel env labels body v
    | .label name body =>
      (eval fuel (.label name (labels + 1) env) (labels + 1) body v).untilJump (labels + 1)
    | .jump name => .fail ((env.label? name).elim .stopped .jump)
    | .reduce source pattern start step =>
      let envs := (here source).andThen fun x => bindPattern run x pattern env
      (here start).andThen (envs.foldAll fun v env => eval fuel env labels step v)
    | .foreach source pattern start step give =>
      let envs := (here source).andThen fun x => bindPattern run x pattern env
      let give (v : Value) (env : Env) : Outputs Value :=
        eval fuel env labels (give.getD .identity) v
      (here start).andThen (envs.scanAll (fun v env => eval fuel env labels step v) give)
    | .attempt body handler =>
      (here body).handle fun e =>
        match handler with
        | some t => run t e
        | none => .nil
    | .choose test yes no =>
      (here test).andThen fun c => here (if c.isTrue then yes else no.getD .identity)
    | .define d body => eval fuel (.definition d env) labels body v
    | .call name args =>
      match env.filter? name args.length with
      | some (.argument t caller) => eval fuel caller labels t v
      | some (.definition d inner) =>
        (bindArguments here env d.parameters args inner).andThen fun inner =>
          eval fuel inner labels d.body v
      | none => builtin run name args v
    | .unknownFold _ _ _ _ => .fail .stopped
    | .binding name => .ofExcept ((env.binding? name).elim (.error .stopped) .ok)
    | .path head steps =>
      (here head).andThen fun w => (selectors here steps).andThen fun ss => follow ss w

/-- Changes the parts of a value that a term leads to: of two terms, the second one's first,
so that a part is changed before what it is a part of. -/
def update : Nat → Env → Nat → Term → Value → (Value → Outputs Value) → Outputs Value
  | 0, _, _, _, _, _ => .fail .stopped
  | fuel + 1, env, labels, t, v, f =>
    let run (t : Term) (v : Value) : Outputs Value := eval fuel env labels t v
    let here (t : Term) : Outputs Value := run t v
    match t with
    | .identity => f v
    | .descend => update fuel env labels Term.descent v f
    | .binary .pipe l r =>
      update fuel env labels l v fun w => update fuel env labels r w f
    | .binary .comma l r =>
      (update fuel env labels r v f).andThen fun w => update fuel env labels l w f
    | .binary .alternative l r =>
      let l? := trueOnes (here l)
      update fuel env labels (if l?.head?.isSome then l else r) v f
    | .bind source pattern body =>
      let envs := (here source).andThen fun x => bindPattern run x pattern env
      envs.foldAll (fun w env => update fuel env labels body w f) v
    | .reduce source pattern start step =>
      match ((here source).andThen fun x => bindPattern run x pattern env).gather with
      | .error e => .fail e
      | .ok envs =>
        update fuel env labels start v
          (envs.foldr (fun env f w => update fuel env labels step w f) f)
    | .foreach source pattern start step give =>
      match ((here source).andThen fun x => bindPattern run x pattern env).gather with
      | .error e => .fail e
      | .ok envs =>
        let given (env : Env) (w : Value) : Outputs Value :=
          update fuel env labels (give.getD .identity) w f
        update fuel env labels start v
          (envs.foldr (fun env next w =>
            update fuel env labels step w fun w => (given env w).andThen next) .just)
    | .choose test yes no =>
      (here test).foldAll (fun w c =>
        update fuel env labels (if c.isTrue then yes else no.getD .identity) w f) v
    | .define d body => update fuel (.definition d env) labels body v f
    | .call name args =>
      match env.filter? name args.length with
      | some (.argument t caller) => update fuel caller labels t v f
      | some (.definition d inner) =>
        (bindArguments here env d.parameters args inner).foldAll
          (fun w inner => update fuel inner labels d.body w f) v
      | none => updateBuiltin here name args v
    | .path head steps =>
      update fuel env labels head v fun w =>
        (selectors here steps).foldAll (fun w ss => .ofExcept (updateAlong f ss w)) w
    | _ => .fail .notPath

end

def Scope.base : Scope :=
  ⟨Builtin.names ++ Prelude.definitions.map fun d => (d.name, d.parameters.length), [], []⟩

def Env.base : Env := .ofDefinitions Prelude.definitions

/-- More nested steps than a filter takes that comes to an end in practice. Where an endless
filter ends in `Fault.stopped` here, the program would not return. -/
def maxSteps : Nat := 1000000000000

/-- The outputs of a term without undefined names. -/
def Term.outputs (t : Term) (v : Value) : Outputs Value :=
  eval maxSteps Env.base 0 t v

end SchemaByExample.Filter
