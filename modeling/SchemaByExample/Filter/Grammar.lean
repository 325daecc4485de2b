import SchemaByExample.Filter.Term
import SchemaByExample.Filter.Token

/-! Reading terms from tokens. An error inside a bracketed part is noted, and reading goes on
behind the part; so a filter can have several. -/
namespace SchemaByExample.Filter.Grammar

/-- What should stand at a place. -/
inductive Expected where
  | nothing
  | term
  | key
  | binding
  | name
  | parameter
  | string
  | pattern
  | elseOrEnd
  | commaOrBracket
  | commaOrBrace
  | semicolonOrParenthesis
  | symbol (s : String)
  deriving DecidableEq

namespace Expected

def shown : Expected → String
  | .nothing => "Nothing"
  | .term => "Term"
  | .key => "Key"
  | .binding => "Var"
  | .name => "Ident"
  | .parameter => "Arg"
  | .string => "Str"
  | .pattern => "Pattern"
  | .elseOrEnd => "ElseOrEnd"
  | .commaOrBracket => "CommaOrRBrack"
  | .commaOrBrace => "CommaOrRBrace"
  | .semicolonOrParenthesis => "SemicolonOrRParen"
  | .symbol s => "Just(" ++ Quoted.text s ++ ")"

end Expected

/-- What is expected, and the text of the token that stands there instead; it is empty at
the end. -/
structure Error where
  expected : Expected
  found : String

namespace Error

def shown (e : Error) : String := "(" ++ e.expected.shown ++ ", " ++ Quoted.text e.found ++ ")"

end Error

/-- The tokens that are left, and the errors noted so far. -/
structure State where
  tokens : List Token
  errors : List Error

abbrev Parser (α : Type) := ExceptT Error (StateM State) α

variable {α : Type}

/-- The next token, taken. -/
def next? : Parser (Option Token) := do
  let s ← get
  match s.tokens with
  | [] => return none
  | t :: rest =>
    set { s with tokens := rest }
    return some t

/-- The next token, left in its place. -/
def peek? : Parser (Option Token) := return (← get).tokens.head?

def drop : Parser Unit := modify fun s => { s with tokens := s.tokens.drop 1 }

def textOf (t : Option Token) : String := t.elim "" Token.text

def refuse (expected : Expected) (t : Option Token) : Parser α := throw ⟨expected, textOf t⟩

/-- Whether a token is a symbol or a word with the given text. -/
def isMark (s : String) : Option Token → Bool
  | some (.symbol t) => t == s
  | some (.word t) => t == s
  | _ => false

def take? (s : String) : Parser Bool := do
  if isMark s (← peek?) then
    drop
    return true
  else return false

def need (s : String) : Parser Unit := do
  let t ← next?
  if isMark s t then return () else refuse (.symbol s) t

def binding : Parser String := do
  match ← next? with
  | some (.binding x) => return x
  | t => refuse .binding t

/-- Reads the tokens of a bracketed part. An error in it is noted, and something else stands
for what is missing. -/
def within (inner : List Token) (missing : α) (p : Parser α) : Parser α := do
  let outer := (← get).tokens
  modify fun s => { s with tokens := inner }
  let x ← tryCatch p fun e => do
    modify fun s => { s with errors := s.errors ++ [e] }
    return missing
  modify fun s => { s with tokens := outer }
  return x

/-- Reads a bracketed part up to its closing bracket. -/
def inside (inner : List Token) (closing : String) (missing : α) (p : Parser α) : Parser α :=
  within inner missing do
    let x ← p
    need closing
    return x

/-- How the items of a bracketed part are separated, and what has to stand behind an item. -/
structure Listing where
  separator : String
  closing : String
  expected : Expected

namespace Listing

def arguments : Listing := ⟨";", ")", .semicolonOrParenthesis⟩
def items : Listing := ⟨",", "]", .commaOrBracket⟩
def members : Listing := ⟨",", "\x7d", .commaOrBrace⟩

end Listing

/-- Items up to the closing bracket, one at least. -/
def listed (l : Listing) (p : Parser α) : Nat → Parser (List α)
  | 0 => return []
  | fuel + 1 => do
    let x ← p
    let t ← next?
    if isMark l.separator t then return x :: (← listed l p fuel)
    else if isMark l.closing t then return [x]
    else refuse l.expected t

/-- Members up to the closing brace; a comma may stand behind the last. -/
def listedMembers (p : Parser α) : Nat → Parser (List α)
  | 0 => return []
  | fuel + 1 => do
    if ← take? Listing.members.closing then return []
    let x ← p
    let t ← next?
    if isMark Listing.members.separator t then return x :: (← listedMembers p fuel)
    else if isMark Listing.members.closing t then return [x]
    else refuse Listing.members.expected t

def operator? (withComma : Bool) : Option Token → Option Operator
  | some (.word "or") => some .or
  | some (.word "and") => some .and
  | some (.symbol s) =>
    match s with
    | "|" => some .pipe
    | "," => if withComma then some .comma else none
    | "=" => some .assign
    | "|=" => some .update
    | "+=" => some (.updateBy .add)
    | "-=" => some (.updateBy .sub)
    | "*=" => some (.updateBy .mul)
    | "/=" => some (.updateBy .div)
    | "%=" => some (.updateBy .rem)
    | "//=" => some .updateMissing
    | "//" => some .alternative
    | "==" => some (.compare .eq)
    | "!=" => some (.compare .ne)
    | "<" => some (.compare .lt)
    | "<=" => some (.compare .le)
    | ">" => some (.compare .gt)
    | ">=" => some (.compare .ge)
    | "+" => some (.arithmetic .add)
    | "-" => some (.arithmetic .sub)
    | "*" => some (.arithmetic .mul)
    | "/" => some (.arithmetic .div)
    | "%" => some (.arithmetic .rem)
    | _ => none
  | _ => none

def strength : Operator → Nat
  | .pipe => 0
  | .comma => 1
  | .assign | .update | .updateBy _ | .updateMissing => 2
  | .alternative => 3
  | .or => 4
  | .and => 5
  | .compare .eq | .compare .ne => 6
  | .compare _ => 7
  | .arithmetic .add | .arithmetic .sub => 8
  | .arithmetic .mul | .arithmetic .div => 9
  | .arithmetic .rem => 10

/-- Pipes and updates group to the right. -/
def groupsRight (op : Operator) : Bool := strength op == 0 || strength op == 2

/-- What joins two operands: an operator, or a pattern that the outputs of the first are
bound to for the second. -/
inductive Joint where
  | operator (op : Operator)
  | binding (p : Pattern)

namespace Joint

def strength : Joint → Nat
  | .operator op => Grammar.strength op
  | .binding _ => Grammar.strength .pipe

def groupsRight : Joint → Bool
  | .operator op => Grammar.groupsRight op
  | .binding _ => Grammar.groupsRight .pipe

def join (j : Joint) (l r : Term) : Term :=
  match j with
  | .operator op => .binary op l r
  | .binding p => .bind l p r

end Joint

/-- Whether the joint that stands first takes the operand between the two. -/
def isBefore (first second : Joint) : Bool :=
  second.strength < first.strength ||
    (first.strength == second.strength && !second.groupsRight)

/-- Closes the pending joints that take the operand before the next joint. -/
def close (j : Joint) : List (Term × Joint) → Term → List (Term × Joint) × Term
  | [], t => ([], t)
  | (l, first) :: pending, t =>
    if isBefore first j then close j pending (first.join l t) else ((l, first) :: pending, t)

/-- Groups operands by the strength of the joints between them. -/
def group : List (Term × Joint) → Term → List (Joint × Term) → Term
  | pending, t, [] => pending.foldl (fun t x => x.2.join x.1 t) t
  | pending, t, (j, u) :: rest =>
    let (pending, t) := close j pending t
    group ((t, j) :: pending) u rest

def parameter : Parser String := do
  match ← next? with
  | some (.word x) => if Token.isPlain x then return x else refuse .parameter (some (.word x))
  | some (.binding x) => return x
  | t => refuse .parameter t

def definedName : Parser String := do
  match ← next? with
  | some (.word f) => if Token.isPlain f then return f else refuse .name (some (.word f))
  | some (.format f) => return f
  | t => refuse .name t

def parameters : Parser (List String) := do
  match ← peek? with
  | some (.block text inner) =>
    if text.startsWith "(" then
      drop
      within inner [] (listed .arguments parameter inner.length)
    else return []
  | _ => return []

/-- Question marks; whether there is one. -/
def questions : Nat → Parser Bool
  | 0 => return false
  | fuel + 1 => do
    if ← take? "?" then
      discard (questions fuel)
      return true
    else return false

def opensWith (opening : String) : Option Token → Bool
  | some (.block text _) => text.startsWith opening
  | _ => false

mutual

/-- A term; inside an object, a comma ends it. -/
def term : Nat → Bool → Parser Term
  | 0, _ => refuse .term none
  | fuel + 1, withComma => do
    let t ← atom fuel
    let rest ← tail fuel withComma
    return group [] t rest

def tail : Nat → Bool → Parser (List (Joint × Term))
  | 0, _ => return []
  | fuel + 1, withComma => do
    match ← joint? fuel withComma with
    | none => return []
    | some j =>
      let t ← atom fuel
      return (j, t) :: (← tail fuel withComma)

def joint? : Nat → Bool → Parser (Option Joint)
  | 0, _ => return none
  | fuel + 1, withComma => do
    if ← take? "as" then
      let p ← pattern fuel
      need "|"
      return some (.binding p)
    else
      match operator? withComma (← peek?) with
      | none => return none
      | some op =>
        drop
        return some (.operator op)

/-- An atom with the steps behind it. Question marks that follow no step are its own. -/
def atom : Nat → Parser Term
  | 0 => refuse .term none
  | fuel + 1 => do
    let (t, first) ← head fuel
    let t ← match first with
      | [] => if ← questions (← get).tokens.length then pure (Term.attempt t none) else pure t
      | _ => pure t
    let more ← steps fuel
    match first ++ more with
    | [] => return t
    | all => return .path t all

/-- The start of an atom; a dot may have a step of its own. -/
def head : Nat → Parser (Term × List Step)
  | 0 => refuse .term none
  | fuel + 1 => do
    match ← next? with
    | some (.word w) => return (← worded fuel w, [])
    | some (.binding x) => return (.binding x, [])
    | some (.number n) => return (.number n, [])
    | some (.string _ ps) => return (.string none (← pieces fuel ps), [])
    | some (.format f) =>
      match ← peek? with
      | some (.string _ ps) =>
        drop
        return (.string (some f) (← pieces fuel ps), [])
      | _ => return (.call f (← arguments fuel), [])
    | some (.block text inner) =>
      if text.startsWith "(" then return (← inside inner ")" .identity (term fuel true), [])
      else if text.startsWith "[" then
        if inner.length ≤ 1 then return (.array none, [])
        else return (.array (some (← inside inner "]" .identity (term fuel true))), [])
      else return (.object (← within inner [] (listedMembers (entry fuel) inner.length)), [])
    | some (.symbol s) =>
      if s = "-" then return (.negate (← atom fuel), [])
      else if s = ".." then return (.descend, [])
      else if s = "." then
        match ← peek? with
        | some (.string _ _) | some (.format _) => return (.identity, [← keyStep fuel])
        | some (.block text inner) =>
          if text.startsWith "[" then
            drop
            return (.identity, [← bracketStep fuel inner])
          else return (.identity, [])
        | _ => return (.identity, [])
      else if s.startsWith "." then
        let optional ← questions (← get).tokens.length
        return (.identity, [.key (.text (s.drop 1).toString) optional])
      else refuse .term (some (.symbol s))
    | none => refuse .term none

/-- A term that starts with a word. -/
def worded : Nat → String → Parser Term
  | 0, _ => refuse .term none
  | fuel + 1, w => do
    match w with
    | "def" =>
      let d ← definition fuel
      return .define d (← term fuel true)
    | "if" => conditional fuel
    | "try" =>
      let t ← atom fuel
      if ← take? "catch" then return .attempt t (some (← atom fuel)) else return .attempt t none
    | "label" =>
      let x ← binding
      need "|"
      return .label x (← term fuel true)
    | "break" => return .jump (← binding)
    | "reduce" | "foreach" =>
      let source ← atom fuel
      need "as"
      let p ← pattern fuel
      match w, ← arguments fuel with
      | "reduce", [start, step] => return .reduce source p start step
      | "foreach", [start, step] => return .foreach source p start step none
      | "foreach", [start, step, give] => return .foreach source p start step (some give)
      | _, args => return .unknownFold w source p args
    | _ => return .call w (← arguments fuel)

def definition : Nat → Parser Definition
  | 0 => refuse .name none
  | fuel + 1 => do
    let f ← definedName
    let ps ← parameters
    need ":"
    let body ← term fuel true
    need ";"
    return .mk f ps body

/-- A conditional behind its first word; a branch that is missing is the identity. -/
def conditional : Nat → Parser Term
  | 0 => refuse .term none
  | fuel + 1 => do
    let test ← term fuel true
    need "then"
    let yes ← term fuel true
    let t ← next?
    if isMark "elif" t then return .choose test yes (some (← conditional fuel))
    else if isMark "else" t then
      let no ← term fuel true
      need "end"
      return .choose test yes (some no)
    else if isMark "end" t then return .choose test yes none
    else refuse .elseOrEnd t

def arguments : Nat → Parser (List Term)
  | 0 => return []
  | fuel + 1 => do
    match ← peek? with
    | some (.block text inner) =>
      if text.startsWith "(" then
        drop
        within inner [] (listed .arguments (term fuel true) inner.length)
      else return []
    | _ => return []

def pieces : Nat → List Piece → Parser (List TextPiece)
  | _, [] => return []
  | 0, _ => return []
  | fuel + 1, .text s :: rest => return .text s :: (← pieces fuel rest)
  | fuel + 1, .term inner :: rest => do
    let t ← inside inner ")" .identity (term fuel true)
    return .term t :: (← pieces fuel rest)

def key : Nat → Parser Term
  | 0 => refuse .key none
  | fuel + 1 => do
    match ← next? with
    | some (.word w) =>
      if Token.isPlain w then return .text w else refuse .key (some (.word w))
    | some (.string _ ps) => return .string none (← pieces fuel ps)
    | some (.format f) =>
      match ← next? with
      | some (.string _ ps) => return .string (some f) (← pieces fuel ps)
      | t => refuse .string t
    | t => refuse .key t

def keyStep : Nat → Parser Step
  | 0 => refuse .key none
  | fuel + 1 => do
    let k ← key fuel
    return .key k (← questions (← get).tokens.length)

def bracketStep : Nat → List Token → Parser Step
  | 0, _ => refuse .key none
  | fuel + 1, inner => do
    let make ← inside inner "]" (fun o => Step.slice none none o) do
      if isMark "]" (← peek?) then return .slice none none
      else if ← take? ":" then
        let stop ← term fuel true
        return .slice none (some stop)
      else
        let start ← term fuel true
        if ← take? ":" then
          if isMark "]" (← peek?) then return .slice (some start) none
          else
            let stop ← term fuel true
            return .slice (some start) (some stop)
        else return .key start
    return make (← questions (← get).tokens.length)

def steps : Nat → Parser (List Step)
  | 0 => return []
  | fuel + 1 => do
    match ← peek? with
    | some (.block text inner) =>
      if text.startsWith "[" then
        drop
        let step ← bracketStep fuel inner
        return step :: (← steps fuel)
      else return []
    | some (.symbol s) =>
      if s = "." then
        drop
        let step ← keyStep fuel
        return step :: (← steps fuel)
      else if s.startsWith "." && s != ".." then
        drop
        let optional ← questions (← get).tokens.length
        return .key (.text (s.drop 1).toString) optional :: (← steps fuel)
      else return []
    | _ => return []

def entry : Nat → Parser Entry
  | 0 => refuse .key none
  | fuel + 1 => do
    match ← peek? with
    | some (.binding x) =>
      drop
      if ← take? ":" then return .mk (.binding x) (some (← term fuel false))
      else return .mk (.text (x.drop 1).toString) (some (.binding x))
    | t =>
      if opensWith "(" t then
        let k ← memberKey fuel
        need ":"
        return .mk k (some (← term fuel false))
      else
        let k ← key fuel
        if ← take? ":" then return .mk k (some (← term fuel false)) else return .mk k none

/-- The key of a member, a term in parentheses, a word or a string. -/
def memberKey : Nat → Parser Term
  | 0 => refuse .key none
  | fuel + 1 => do
    match ← peek? with
    | some (.block text inner) =>
      if text.startsWith "(" then
        drop
        inside inner ")" .identity (term fuel true)
      else key fuel
    | _ => key fuel

def pattern : Nat → Parser Pattern
  | 0 => refuse .pattern none
  | fuel + 1 => do
    match ← next? with
    | some (.binding x) => return .binding x
    | some (.block text inner) =>
      if text.startsWith "[" then
        return .array (← within inner [] (listed .items (pattern fuel) inner.length))
      else if text.startsWith "(" then refuse .pattern (some (.block text inner))
      else
        return .object (← within inner [] (listedMembers (patternMember fuel) inner.length))
    | t => refuse .pattern t

def patternMember : Nat → Parser PatternMember
  | 0 => refuse .key none
  | fuel + 1 => do
    match ← peek? with
    | some (.binding x) =>
      drop
      if ← take? ":" then return .mk (.binding x) (← pattern fuel)
      else return .mk (.text (x.drop 1).toString) (.binding x)
    | _ =>
      let k ← memberKey fuel
      need ":"
      return .mk k (← pattern fuel)

end

def plainString : Parser String := do
  match ← next? with
  | some (.string text ps) =>
    if text.toList.contains '\\' then refuse .string (some (.string text ps))
    else
      match ps with
      | [.text s] => return s
      | _ => return ""
  | t => refuse .string t

/-- The modules whose filters a filter asks for; those that it asks for as data do not
count. -/
def modules : Nat → Parser (List String)
  | 0 => return []
  | fuel + 1 => do
    let t ← peek?
    if isMark "include" t then
      drop
      let path ← plainString
      settings fuel
      return path :: (← modules fuel)
    else if isMark "import" t then
      drop
      let path ← plainString
      need "as"
      match ← next? with
      | some (.binding _) =>
        settings fuel
        modules fuel
      | some (.word w) =>
        if !Token.isPlain w then refuse .name (some (.word w))
        settings fuel
        return path :: (← modules fuel)
      | t => refuse .name t
    else return []
where
  settings (fuel : Nat) : Parser Unit := do
    if !isMark ";" (← peek?) then discard (term fuel true)
    need ";"

/-- A whole filter, with the modules that it asks for. -/
def whole (fuel : Nat) : Parser (List String × Term) := do
  if ← take? "module" then
    discard (term fuel true)
    need ";"
  let ms ← modules fuel
  let t ← term fuel true
  match ← peek? with
  | none => return (ms, t)
  | t => refuse .nothing t

/-- The definitions of a text that holds nothing else. -/
def definitions : Nat → Parser (List Definition)
  | 0 => return []
  | fuel + 1 => do
    if ← take? "def" then
      let d ← definition fuel
      return d :: (← definitions fuel)
    else
      match ← peek? with
      | none => return []
      | t => refuse .name t

def run (p : Parser α) (tokens : List Token) : Except (List Error) α :=
  match p ⟨tokens, []⟩ with
  | (.error e, s) => .error (s.errors ++ [e])
  | (.ok x, s) => if s.errors.isEmpty then .ok x else .error s.errors

end SchemaByExample.Filter.Grammar
