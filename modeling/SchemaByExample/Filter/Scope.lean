import SchemaByExample.Filter.Term
import SchemaByExample.Filter.Token

/-! The names that a term uses without a definition. -/
namespace SchemaByExample.Filter

inductive Undefined where
  | module (name : String)
  | filter (name : String) (arity : Nat)
  | binding (name : String)
  | label (name : String)
  deriving DecidableEq

namespace Undefined

def shown : Undefined → String
  | .module name => "`" ++ name ++ "`: Mod"
  | .filter name arity => "`" ++ name ++ "`: Filter(" ++ toString arity ++ ")"
  | .binding name => "`" ++ name ++ "`: Var"
  | .label name => "`" ++ name ++ "`: Label"

end Undefined

mutual

def Pattern.names : Pattern → List String
  | .binding x => [x]
  | .array items => Pattern.namesOf items
  | .object members => Pattern.memberNames members

def Pattern.namesOf : List Pattern → List String
  | [] => []
  | p :: rest => p.names ++ namesOf rest

def Pattern.memberNames : List PatternMember → List String
  | [] => []
  | .mk _ p :: rest => p.names ++ memberNames rest

end

structure Scope where
  filters : List (String × Nat)
  bindings : List String
  labels : List String

namespace Scope

def withBindings (s : Scope) (names : List String) : Scope :=
  { s with bindings := names ++ s.bindings }

def withLabel (s : Scope) (name : String) : Scope := { s with labels := name :: s.labels }

def withFilter (s : Scope) (name : String) (arity : Nat) : Scope :=
  { s with filters := (name, arity) :: s.filters }

/-- A parameter is bound, or defined as a filter without parameters of its own. -/
def withParameters (s : Scope) : List String → Scope
  | [] => s
  | p :: rest =>
    let s := if p.startsWith "$" then s.withBindings [p] else s.withFilter p 0
    s.withParameters rest

def checkFilter (s : Scope) (name : String) (arity : Nat) : List Undefined :=
  match Token.module? name.toList with
  | some m => [.module (String.ofList m)]
  | none => if s.filters.contains (name, arity) then [] else [.filter name arity]

end Scope

open Scope

mutual

/-- The undefined names of a term, in the order in which it is taken apart: arguments before
the name that is called, but what a definition, a pattern or the alternative of a condition
stands before ahead of it. -/
def Term.undefined (s : Scope) : Term → List Undefined
  | .identity => []
  | .descend => []
  | .number _ => []
  | .string format pieces =>
    (match format with
      | some f => s.checkFilter f 0
      | none => []) ++ TextPiece.undefined s pieces
  | .array items => Term.undefinedIn s items
  | .object entries => Entry.undefined s entries
  | .negate t => t.undefined s
  | .binary _ l r => l.undefined s ++ r.undefined s
  | .bind source pattern body =>
    body.undefined (s.withBindings pattern.names) ++ source.undefined s ++ pattern.undefined s
  | .label name body => body.undefined (s.withLabel name)
  | .jump name => if s.labels.contains name then [] else [.label name]
  | .reduce source pattern start step =>
    source.undefined s ++ pattern.undefined s ++ start.undefined s ++
      step.undefined (s.withBindings pattern.names)
  | .foreach source pattern start step give =>
    let inner := s.withBindings pattern.names
    source.undefined s ++ pattern.undefined s ++ start.undefined s ++ step.undefined inner ++
      Term.undefinedIn inner give
  | .attempt body handler => body.undefined s ++ Term.undefinedIn s handler
  | .choose test yes no => Term.undefinedIn s no ++ test.undefined s ++ yes.undefined s
  | .define d body =>
    body.undefined (s.withFilter d.name d.parameters.length) ++ d.undefined s
  | .call name arguments =>
    Term.undefinedAll s arguments ++ s.checkFilter name arguments.length
  | .unknownFold name source pattern arguments =>
    (match arguments with
      | start :: step :: _ =>
        source.undefined s ++ pattern.undefined s ++ start.undefined s ++
          step.undefined (s.withBindings pattern.names)
      | _ => []) ++ [.filter name arguments.length]
  | .binding name => if s.bindings.contains name then [] else [.binding name]
  | .path head steps => head.undefined s ++ Step.undefined s steps

def Term.undefinedIn (s : Scope) : Option Term → List Undefined
  | none => []
  | some t => t.undefined s

def Term.undefinedAll (s : Scope) : List Term → List Undefined
  | [] => []
  | t :: rest => t.undefined s ++ Term.undefinedAll s rest

def TextPiece.undefined (s : Scope) : List TextPiece → List Undefined
  | [] => []
  | .text _ :: rest => TextPiece.undefined s rest
  | .term t :: rest => t.undefined s ++ TextPiece.undefined s rest

def Entry.undefined (s : Scope) : List Entry → List Undefined
  | [] => []
  | .mk k v :: rest => k.undefined s ++ Term.undefinedIn s v ++ Entry.undefined s rest

def Pattern.undefined (s : Scope) : Pattern → List Undefined
  | .binding _ => []
  | .array items => Pattern.undefinedAll s items
  | .object members => PatternMember.undefined s members

def Pattern.undefinedAll (s : Scope) : List Pattern → List Undefined
  | [] => []
  | p :: rest => p.undefined s ++ Pattern.undefinedAll s rest

def PatternMember.undefined (s : Scope) : List PatternMember → List Undefined
  | [] => []
  | .mk k p :: rest => k.undefined s ++ p.undefined s ++ PatternMember.undefined s rest

def Definition.undefined (s : Scope) : Definition → List Undefined
  | .mk name parameters body =>
    body.undefined ((s.withFilter name parameters.length).withParameters parameters)

def Step.undefined (s : Scope) : List Step → List Undefined
  | [] => []
  | .key k _ :: rest => k.undefined s ++ Step.undefined s rest
  | .slice start stop _ :: rest =>
    Term.undefinedIn s start ++ Term.undefinedIn s stop ++ Step.undefined s rest

end

end SchemaByExample.Filter
