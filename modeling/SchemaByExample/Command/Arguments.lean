/-! The command line: what it asks for, or that it asks for help, or that it is wrong. -/
namespace SchemaByExample.Command

inductive Product where
  | schema | shape
  deriving DecidableEq, Repr

/-- Where documents come from and what is selected from them. -/
structure InputSettings where
  ndjson : Bool := false
  pointer : Option String := none
  filter : Option String := none
  inputs : List String := []
  deriving DecidableEq

structure Request where
  product : Product
  input : InputSettings := {}
  out : Option String := none
  compact : Bool := false
  noOp : Bool := false
  deriving DecidableEq

inductive HelpTopic where
  | main
  | product (p : Product)
  | help
  deriving DecidableEq

inductive Parsed where
  | request (r : Request)
  | help (topic : HelpTopic)
  | wrong
  deriving DecidableEq

inductive ValueOption where
  | input | out | pointer | filter
  deriving DecidableEq

inductive Flag where
  | ndjson | compact | noOp
  deriving DecidableEq

inductive LongName where
  | value (o : ValueOption)
  | flag (f : Flag)
  | help
  deriving DecidableEq

def longName? (name : String) : Option LongName :=
  match name with
  | "input" => some (.value .input)
  | "out" => some (.value .out)
  | "json-pointer" => some (.value .pointer)
  | "jq-expr" => some (.value .filter)
  | "ndjson" => some (.flag .ndjson)
  | "compact" => some (.flag .compact)
  | "no-op" => some (.flag .noOp)
  | "help" => some .help
  | _ => none

/-- Sets an option to the values it was given. Only inputs may be given more than once or
several at a time, and the output path may not be empty. -/
def Request.setValue (r : Request) : ValueOption → List String → Option Request
  | _, [] => none
  | .input, vs => some { r with input := { r.input with inputs := r.input.inputs ++ vs } }
  | .out, [v] => if r.out.isNone && !v.isEmpty then some { r with out := some v } else none
  | .pointer, [v] =>
    if r.input.pointer.isNone then some { r with input := { r.input with pointer := some v } }
    else none
  | .filter, [v] =>
    if r.input.filter.isNone then some { r with input := { r.input with filter := some v } }
    else none
  | _, _ => none

/-- Sets a flag, which may be given once. -/
def Request.setFlag (r : Request) : Flag → Option Request
  | .ndjson =>
    if r.input.ndjson then none else some { r with input := { r.input with ndjson := true } }
  | .compact => if r.compact then none else some { r with compact := true }
  | .noOp => if r.noOp then none else some { r with noOp := true }

/-- An option whose values are being read. -/
structure Pending where
  option : ValueOption
  values : List String

/-- Whether another argument may be a value of the option. -/
def Pending.takesMore (p : Pending) : Bool := p.option = .input || p.values.isEmpty

def settle (r : Request) : Option Pending → Option Request
  | none => some r
  | some p => r.setValue p.option p.values

/-- An argument by its form: a long name with the value behind its equals sign, letters
behind a single dash, the mark after which all arguments are values, or a value. -/
inductive Form where
  | long (name : String) (value : Option String)
  | short (letters : List Char)
  | values
  | value

def formOf (arg : String) : Form :=
  match arg.toList with
  | ['-', '-'] => .values
  | '-' :: '-' :: rest =>
    let name := rest.takeWhile (· ≠ '=')
    let value := match rest.dropWhile (· ≠ '=') with
      | _ :: v => some (String.ofList v)
      | [] => none
    .long (String.ofList name) value
  | '-' :: c :: rest => .short (c :: rest)
  | _ => .value

/-- A request is complete when it names an input. -/
def finish (r : Request) (pending : Option Pending) : Parsed :=
  match settle r pending with
  | some r => if r.input.inputs.isEmpty then .wrong else .request r
  | none => .wrong

def parseOptions (r : Request) (pending : Option Pending) : List String → Parsed
  | [] => finish r pending
  | arg :: rest =>
    let help : Parsed :=
      match settle r pending with
      | some _ => .help (.product r.product)
      | none => .wrong
    /- An option with its value behind it, or else in the arguments that follow. -/
    let option (o : ValueOption) (value : Option String) : Parsed :=
      match settle r pending with
      | none => .wrong
      | some r =>
        match value with
        | none => parseOptions r (some ⟨o, []⟩) rest
        | some v =>
          match r.setValue o [v] with
          | some r => parseOptions r none rest
          | none => .wrong
    match formOf arg with
    | .values => if rest.isEmpty then finish r pending else .wrong
    | .long name value =>
      match longName? name, value with
      | some (.value o), v => option o v
      | some (.flag f), none =>
        match (settle r pending).bind (·.setFlag f) with
        | some r => parseOptions r none rest
        | none => .wrong
      | some .help, none => help
      | _, _ => .wrong
    | .short letters =>
      let attached : List Char → Option String
        | [] => none
        | '=' :: v => some (String.ofList v)
        | v => some (String.ofList v)
      match letters with
      | 'h' :: _ => help
      | 'i' :: v => option .input (attached v)
      | 'o' :: v => option .out (attached v)
      | _ => .wrong
    | .value =>
      match pending with
      | some p =>
        if p.takesMore then parseOptions r (some { p with values := p.values ++ [arg] }) rest
        else .wrong
      | none => .wrong

def productName : Product → String
  | .schema => "schema"
  | .shape => "shape"

def product? (name : String) : Option Product :=
  match name with
  | "schema" => some .schema
  | "shape" => some .shape
  | _ => none

def parseHelp : List String → Parsed
  | [] => .help .main
  | [name] =>
    match product? name with
    | some p => .help (.product p)
    | none => if name = "help" then .help .help else .wrong
  | _ => .wrong

def parse : List String → Parsed
  | [] => .wrong
  | arg :: rest =>
    match product? arg with
    | some p => parseOptions { product := p } none rest
    | none =>
      if arg = "help" then parseHelp rest
      else match formOf arg with
        | .long "help" none => .help .main
        | .short ('h' :: _) => .help .main
        | _ => .wrong

end SchemaByExample.Command
