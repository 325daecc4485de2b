import SchemaByExample.Number.Decimal

/-! Decimal numbers as text: a sign, digits with a point among them, an exponent. Each
reader takes the longest such part at the front and gives what follows it. -/
namespace SchemaByExample.Number.DecimalText

def isDigit (c : Char) : Bool := 48 ≤ c.toNat && c.toNat < 58

def digits (cs : List Char) : List Nat × List Char :=
  ((cs.takeWhile isDigit).map (fun c => c.toNat - 48), cs.dropWhile isDigit)

def sign : List Char → Bool × List Char
  | '+' :: cs => (false, cs)
  | '-' :: cs => (true, cs)
  | cs => (false, cs)

/-- The exponent at the front; one without digits is no exponent. -/
def exponent (cs : List Char) : Int × List Char :=
  match cs with
  | c :: rest =>
    if c = 'e' ∨ c = 'E' then
      let (negative, rest) := sign rest
      match digits rest with
      | ([], _) => (0, cs)
      | (ds, rest) => (if negative then -(ofDigits 10 ds : Int) else ofDigits 10 ds, rest)
    else (0, cs)
  | [] => (0, [])

/-- The digits before and behind the point at the front, of which one side has to have
some. -/
def mantissa? (cs : List Char) : Option (List Nat × List Nat × List Char) :=
  match digits cs with
  | ([], '.' :: rest) =>
    match digits rest with
    | ([], _) => none
    | (fraction, rest) => some ([], fraction, rest)
  | ([], _) => none
  | (whole, '.' :: rest) =>
    let (fraction, rest) := digits rest
    some (whole, fraction, rest)
  | (whole, rest) => some (whole, [], rest)

/-- The longest decimal number at the front and what follows it. -/
def decimal? (cs : List Char) : Option (Decimal × List Char) := do
  let (negative, cs) := sign cs
  let (whole, fraction, cs) ← mantissa? cs
  let (e, cs) := exponent cs
  return (Decimal.ofParts negative whole fraction e, cs)

end SchemaByExample.Number.DecimalText
