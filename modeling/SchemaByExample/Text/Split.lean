/-! Cutting text at a character or a text, and blank text. -/
namespace SchemaByExample.Text

/-- The pieces between the occurrences of a character; there is one piece more than
occurrences. -/
def split (sep : Char) : List Char → List (List Char)
  | [] => [[]]
  | c :: cs =>
    if c = sep then [] :: split sep cs
    else match split sep cs with
      | [] => [[c]]
      | p :: ps => (c :: p) :: ps

theorem split_ne_nil (sep : Char) (cs : List Char) : split sep cs ≠ [] := by
  induction cs with
  | nil => simp [split]
  | cons c cs ih =>
    simp only [split]
    split
    · simp
    · split <;> simp

/-- The pieces between the occurrences of a text, `skip` characters further on. -/
def piecesFrom (sep : List Char) : Nat → List Char → List (List Char)
  | _, [] => [[]]
  | skip + 1, _ :: cs => piecesFrom sep skip cs
  | 0, c :: cs =>
    if sep.isPrefixOf (c :: cs) then [] :: piecesFrom sep (sep.length - 1) cs
    else match piecesFrom sep 0 cs with
      | [] => [[c]]
      | p :: ps => (c :: p) :: ps

/-- The pieces between the occurrences of a text that is not empty. -/
def pieces (sep cs : List Char) : List (List Char) := piecesFrom sep 0 cs

def occurs (part : List Char) : List Char → Bool
  | [] => part.isEmpty
  | c :: cs => part.isPrefixOf (c :: cs) || occurs part cs

/-- The characters that Unicode counts as white space. -/
def isWhiteSpace (c : Char) : Bool :=
  let n := c.toNat
  (9 ≤ n && n ≤ 13) || n == 32 || n == 0x85 || n == 0xA0 || n == 0x1680 ||
    (0x2000 ≤ n && n ≤ 0x200A) || n == 0x2028 || n == 0x2029 || n == 0x202F || n == 0x205F ||
    n == 0x3000

def dropReturn (line : List Char) : List Char :=
  match line.reverse with
  | '\r' :: rest => rest.reverse
  | _ => line

/-- The lines of a text with their numbers, from `n` on: each piece that a line feed ends,
without a carriage return before it, and what follows the last one if that is not empty. -/
def numberLines (n : Nat) : List (List Char) → List (Nat × List Char)
  | [] => []
  | [last] => if last.isEmpty then [] else [(n, last)]
  | line :: rest => (n, dropReturn line) :: numberLines (n + 1) rest

def lines (text : List Char) : List (Nat × List Char) := numberLines 1 (split '\n' text)

end SchemaByExample.Text
