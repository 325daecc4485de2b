import SchemaByExample.Json.Printer

/-! When the items of an array count as alike, and which of them stands for all. -/
namespace SchemaByExample.Similarity

def sortKeys (keys : List String) : List String := keys.mergeSort (fun a b => decide (a ≤ b))

/-- What is compared of an item: the sorted names of an object's members, and of all other
values the whole text. The two kinds of signature begin differently. -/
def signature : Json → String
  | .object members =>
    "keys:" ++ Json.compact (.array ((sortKeys (Members.keys members)).map .string))
  | v => "value:" ++ v.compact

/-- Whether there are items and all have one signature. -/
def alike : List Json → Bool
  | [] => false
  | v :: rest =>
    let s := signature v
    rest.all (fun w => signature w == s)

/-- The place of the widest object so far, counting from `i`. While the widest has no
members, a later object replaces it; after that only a wider one does. -/
def selectFrom (i widest : Nat) (selected : Option Nat) : List Json → Option Nat
  | [] => selected
  | .object members :: rest =>
    if widest = 0 ∨ widest < members.length then
      selectFrom (i + 1) members.length (some i) rest
    else selectFrom (i + 1) widest selected rest
  | _ :: rest => selectFrom (i + 1) widest selected rest

/-- The place of the object that stands for all items. -/
def representative (items : List Json) : Option Nat := selectFrom 0 0 none items

end SchemaByExample.Similarity
