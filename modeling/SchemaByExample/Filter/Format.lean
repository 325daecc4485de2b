import SchemaByExample.Text.Utf8

/-! Text formats: how a text is written inside another notation. -/
namespace SchemaByExample.Filter.Format

def replace (f : Char → Option String) (s : String) : String :=
  String.join (s.toList.map fun c => (f c).getD c.toString)

def html : String → String :=
  replace fun
    | '<' => some "&lt;"
    | '>' => some "&gt;"
    | '&' => some "&amp;"
    | '\'' => some "&apos;"
    | '"' => some "&quot;"
    | _ => none

def upperHex (n : Nat) : Char := (Nat.digitChar n).toUpper

/-- Bytes other than letters, digits and `-_.~` are written by their codes. -/
def uri (s : String) : String :=
  String.ofList ((Utf8.ofString s).flatMap fun b =>
    let c := Char.ofNat b.toNat
    if c.isAlphanum || "-_.~".toList.contains c then [c]
    else ['%', upperHex (b.toNat / 16), upperHex (b.toNat % 16)])

/-- A quote in a quoted cell is written twice. -/
def csv : String → String := replace fun c => if c = '"' then some "\"\"" else none

def tsv : String → String :=
  replace fun
    | '\\' => some "\\\\"
    | '\n' => some "\\n"
    | '\r' => some "\\r"
    | '\t' => some "\\t"
    | _ => none

/-- A quote in a quoted word is written behind the end of the quotes, which are opened
again. -/
def shell : String → String := replace fun c => if c = '\'' then some "'\\''" else none

end SchemaByExample.Filter.Format
