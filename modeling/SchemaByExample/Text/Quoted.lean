import SchemaByExample.Text.Hidden

/-! Text in double quotes for messages, readable wherever it is shown. -/
namespace SchemaByExample.Quoted

/-- A quote, a backslash and the usual controls are escaped, a hidden character is shown by
its code, and all else stands for itself. -/
def escapeChar (c : Char) : List Char :=
  if c = '"' then ['\\', '"']
  else if c = '\\' then ['\\', '\\']
  else if c = '\n' then ['\\', 'n']
  else if c = '\r' then ['\\', 'r']
  else if c = '\t' then ['\\', 't']
  else if c = '\x00' then ['\\', '0']
  else if isHidden c then '\\' :: 'u' :: '\x7b' :: Nat.toDigits 16 c.toNat ++ ['\x7d']
  else [c]

def text (s : String) : String := String.ofList ('"' :: s.toList.flatMap escapeChar ++ ['"'])

/-- Paths are quoted like texts, with apostrophes escaped as well. -/
def path (s : String) : String :=
  String.ofList ('"' :: s.toList.flatMap (fun c => if c = '\'' then ['\\', c] else escapeChar c)
    ++ ['"'])

end SchemaByExample.Quoted
