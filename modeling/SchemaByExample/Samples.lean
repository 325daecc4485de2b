import SchemaByExample.Command.Run

/-! A self check: the schemas of some fixed examples are printed and read back. -/
namespace SchemaByExample.Samples

open Number

structure Sample where
  name : String
  value : Json

def int (n : Int) : Json :=
  match Word.ofInt? n with
  | some w => .number (.word w)
  | none => .null

/-- The double with the given significand and decimal exponent. -/
def decimal (negative : Bool) (significand : Nat) (exponent : Int) : Json :=
  match scaleByTen negative significand exponent with
  | some x => .number (.double x)
  | none => .null

def profile : Sample where
  name := "user-profile"
  value := .object [
    ("id", .string "10293"),
    ("login", .string "acme-bot"),
    ("display_name", .string ""),
    ("verified", .bool false),
    ("score", decimal false 45 (-1)),
    ("avatar", .null),
    ("roles", .array [.string "admin", .string "billing"]),
    ("address", .object [
      ("street", .string "1 Main St"),
      ("zip", .string "94043"),
      ("geo", .array [decimal false 3742 (-2), decimal true 12208 (-2)])])]

def orders : Sample where
  name := "order-list"
  value := .array [
    .object [
      ("order_id", int 1),
      ("items", .array [
        .object [("sku", .string "A-1"), ("qty", int 2)],
        .object [("qty", int 1), ("sku", .string "B-7")]]),
      ("note", .null)],
    .object [("note", .string "gift"), ("order_id", int 2), ("items", .array [])]]

def tuple : Sample where
  name := "mixed-tuple"
  value := .array [
    .object [("kind", .string "header"), ("v", int 1)],
    .object [("kind", .string "row"), ("cells", .array [.string "x", int 2, .null])],
    .string "trailer",
    .array [int 1, .array [int 2, int 3]]]

def all : List Sample :=
  [profile, orders, tuple, ⟨"scalar-root", .string "just a string"⟩, ⟨"empty", .object []⟩]

inductive Verdict where
  | kept (text : String)
  | changed
  | unread (e : ReadError)

/-- Prints the schema of an example, and reads it back. -/
def verdict (v : Json) : Verdict :=
  let schema := Schema.infer v
  let text := schema.document.pretty
  match Schema.ofText text with
  | .ok back => if back.agrees schema then .kept text else .changed
  | .error e => .unread e

/-- What is printed for a sample, and what is reported about it. -/
def report (s : Sample) : Command.Outcome :=
  match verdict s.value with
  | .kept text => ⟨0, "// " ++ s.name ++ "\n" ++ text ++ "\n", "✅ " ++ s.name ++ "\n"⟩
  | .changed => ⟨1, "", "❌ " ++ s.name ++ ": round trip changed the document\n"⟩
  | .unread e => ⟨1, "", "❌ " ++ s.name ++ ": " ++ (InputError.text e).message ++ "\n"⟩

/-- One run after another; it fails if one of them does. -/
def combine (a b : Command.Outcome) : Command.Outcome :=
  ⟨max a.status b.status, a.stdout ++ b.stdout, a.stderr ++ b.stderr⟩

def run (samples : List Sample) : Command.Outcome := (samples.map report).foldl combine ⟨0, "", ""⟩

end SchemaByExample.Samples
