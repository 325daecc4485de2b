import SchemaByExample.Text.Split

/-! Path patterns: `?` stands for a character, `*` for any number of them, brackets for one
of a set, and `**` for any number of directories. -/
namespace SchemaByExample.Files

/-- The characters between two, in order of their codes; a single one is between itself. -/
structure CharRange where
  low : Char
  high : Char
  deriving DecidableEq

inductive Token where
  | char (c : Char)
  | any
  | sequence
  | directories
  | oneOf (ranges : List CharRange)
  | noneOf (ranges : List CharRange)
  deriving DecidableEq

inductive PatternFault where
  | wildcards | recursive_ | range
  deriving DecidableEq, Repr

/-- What is wrong with a pattern, and at which of its characters. -/
structure PatternError where
  position : Nat
  fault : PatternFault
  deriving DecidableEq, Repr

namespace PatternError

def message (e : PatternError) : String :=
  "Pattern syntax error near position " ++ toString e.position ++ ": " ++
    match e.fault with
    | .wildcards => "wildcards are either regular `*` or recursive `**`"
    | .recursive_ => "recursive wildcards must form a single path component"
    | .range => "invalid range pattern"

end PatternError

def ranges : List Char → List CharRange
  | a :: '-' :: b :: rest => ⟨a, b⟩ :: ranges rest
  | a :: rest => ⟨a, a⟩ :: ranges rest
  | [] => []

/-- Cuts a set off the characters behind its opening bracket. The first character of a set
belongs to it even if it is a bracket. -/
def cutSet : List Char → Option (List Char × List Char)
  | [] => none
  | c :: rest =>
    if rest.contains ']' then
      some (c :: rest.takeWhile (· ≠ ']'), (rest.dropWhile (· ≠ ']')).drop 1)
    else none

/-- The tokens from position `i` on; `before` is the character in front. -/
def tokens : (fuel i : Nat) → (before : Option Char) → List Char →
    Except PatternError (List Token)
  | 0, _, _, _ => .ok []
  | _, _, _, [] => .ok []
  | fuel + 1, i, before, c :: rest =>
    if c = '?' then (tokens fuel (i + 1) (some c) rest).map (.any :: ·)
    else if c = '*' then
      let more := rest.takeWhile (· = '*')
      let after := rest.dropWhile (· = '*')
      match more with
      | [] => (tokens fuel (i + 1) (some c) rest).map (.sequence :: ·)
      | [_] =>
        if before.all (· = '/') then
          match after with
          | [] => .ok [.directories]
          | '/' :: after => (tokens fuel (i + 3) (some '/') after).map (.directories :: ·)
          | _ => .error ⟨i + 2, .recursive_⟩
        else .error ⟨i - 1, .recursive_⟩
      | _ => .error ⟨i + 2, .wildcards⟩
    else if c = '[' then
      match rest with
      | '!' :: set =>
        match cutSet set with
        | some (set, after) =>
          (tokens fuel (i + set.length + 3) (some ']') after).map (.noneOf (ranges set) :: ·)
        | none => .error ⟨i, .range⟩
      | _ =>
        match cutSet rest with
        | some (set, after) =>
          (tokens fuel (i + set.length + 2) (some ']') after).map (.oneOf (ranges set) :: ·)
        | none => .error ⟨i, .range⟩
    else (tokens fuel (i + 1) (some c) rest).map (.char c :: ·)

def parsePattern (pattern : List Char) : Except PatternError (List Token) :=
  tokens pattern.length 0 none pattern

def inRanges (rs : List CharRange) (c : Char) : Bool := rs.any fun r => r.low ≤ c && c ≤ r.high

/-- Whether a token stands for a single character. -/
def Token.accepts (c : Char) : Token → Bool
  | .char d => d == c
  | .any => true
  | .oneOf rs => inRanges rs c
  | .noneOf rs => !inRanges rs c
  | .sequence => false
  | .directories => false

/-- Whether some end of the text passes, be it the whole text or nothing. -/
def anyEnd (passes : List Char → Bool) : List Char → Bool
  | [] => passes []
  | c :: cs => passes (c :: cs) || anyEnd passes cs

def fits : List Token → List Char → Bool
  | [], cs => cs.isEmpty
  | .sequence :: ts, cs => anyEnd (fits ts) cs
  | .directories :: ts, cs => anyEnd (fits ts) cs
  | _ :: _, [] => false
  | t :: ts, c :: cs => t.accepts c && fits ts cs

/-- The name that tokens spell if they are all characters. -/
def spelled? : List Token → Option (List Char)
  | [] => some []
  | .char c :: ts => (spelled? ts).map (c :: ·)
  | _ :: _ => none

def isPattern (s : String) : Bool :=
  s.toList.any fun c => c == '*' || c == '?' || c == '[' || c == '\x7b'

end SchemaByExample.Files
