import SchemaByExample.Filter.Value

/-! Terms of the filter language. -/
namespace SchemaByExample.Filter

inductive Arithmetic where
  | add | sub | mul | div | rem
  deriving DecidableEq

namespace Arithmetic

def sign : Arithmetic → String
  | .add => "+"
  | .sub => "-"
  | .mul => "*"
  | .div => "/"
  | .rem => "%"

end Arithmetic

inductive Comparison where
  | eq | ne | lt | le | gt | ge
  deriving DecidableEq

namespace Comparison

def holds (c : Comparison) (o : Ordering) : Bool :=
  match c with
  | .eq => o == .eq
  | .ne => o != .eq
  | .lt => o == .lt
  | .le => o != .gt
  | .gt => o == .gt
  | .ge => o != .lt

end Comparison

inductive Operator where
  | pipe
  | comma
  | assign
  | update
  | updateBy (op : Arithmetic)
  | updateMissing
  | alternative
  | or
  | and
  | compare (c : Comparison)
  | arithmetic (op : Arithmetic)
  deriving DecidableEq

mutual

inductive Term where
  | identity
  | descend
  | number (text : String)
  | string (format : Option String) (pieces : List TextPiece)
  | array (items : Option Term)
  | object (entries : List Entry)
  | negate (t : Term)
  | binary (op : Operator) (l r : Term)
  | bind (source : Term) (pattern : Pattern) (body : Term)
  | label (name : String) (body : Term)
  | jump (name : String)
  | reduce (source : Term) (pattern : Pattern) (start step : Term)
  | foreach (source : Term) (pattern : Pattern) (start step : Term) (give : Option Term)
  | attempt (body : Term) (handler : Option Term)
  | choose (test yes : Term) (no : Option Term)
  | define (definition : Definition) (body : Term)
  | call (name : String) (arguments : List Term)
  | unknownFold (name : String) (source : Term) (pattern : Pattern) (arguments : List Term)
  | binding (name : String)
  | path (head : Term) (steps : List Step)

inductive TextPiece where
  | text (s : String)
  | term (t : Term)

/-- A member of an object; without a value, it takes the one that its key has in the
input. -/
inductive Entry where
  | mk (key : Term) (value : Option Term)

inductive Pattern where
  | binding (name : String)
  | array (items : List Pattern)
  | object (members : List PatternMember)

inductive PatternMember where
  | mk (key : Term) (pattern : Pattern)

/-- A filter with parameters; those with a dollar sign stand for values, the others for
filters. -/
inductive Definition where
  | mk (name : String) (parameters : List String) (body : Term)

/-- A step from a container to some of its parts. The errors of an optional step are
dropped. -/
inductive Step where
  | key (key : Term) (optional : Bool)
  | slice (start stop : Option Term) (optional : Bool)

end

instance : Inhabited Term := ⟨.identity⟩

namespace Definition

def name : Definition → String
  | .mk n _ _ => n

def parameters : Definition → List String
  | .mk _ ps _ => ps

def body : Definition → Term
  | .mk _ _ b => b

end Definition

namespace Term

def text (s : String) : Term := .string none [.text s]

/-- All parts of the input, or nothing if it has none. -/
def parts : Term := .path .identity [.slice none none true]

/-- The input and its parts, their parts and so on. -/
def descent : Term := .binary .comma .identity (.binary .pipe parts .descend)

def member (key : Term) : Term := .path .identity [.key key false]

end Term

end SchemaByExample.Filter
