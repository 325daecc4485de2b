import SchemaByExample.Proofs.Json.Documents
import SchemaByExample.Proofs.Json.NumberText
import SchemaByExample.Proofs.Shape.Noninterference

/-! Texts of a value read back. They are texts of the grammar, but they need not denote the
value: a double may come back as another one. All of them denote the same value, and it
resembles the one that is written. -/
namespace SchemaByExample.Json

open Read Literal

theorem exists_space_of_blanks {bl : Bytes} (h : Blanks bl) :
    ∃ cs, Space cs ∧ bl = Utf8.encode cs := by
  obtain ⟨cs, hcs, hbl⟩ := exists_space (skipBlanks_blanks h)
  exact ⟨cs, hcs, by rwa [List.append_nil] at hbl⟩

theorem exists_separator_of_separates {first : Bool} {front : Bytes} (h : Separates first front) :
    ∃ cs, Separator first cs ∧ front = Utf8.encode cs := by
  cases h with
  | first h =>
    obtain ⟨cs, hcs, rfl⟩ := exists_space_of_blanks h
    exact ⟨cs, .first hcs, rfl⟩
  | next h h' =>
    obtain ⟨cs, hcs, rfl⟩ := exists_space_of_blanks h
    obtain ⟨cs', hcs', rfl⟩ := exists_space_of_blanks h'
    exact ⟨_, .next hcs hcs', by rw [Utf8.encode_append, encode_ascii_cons (by decide)]⟩

theorem exists_content_quote (s : String) : ∃ body, Content body s.toList ∧
    Utf8.encode (quote s) = Utf8.encode ('"' :: (body ++ ['"'])) := by
  obtain ⟨body, hbody, hbytes⟩ := exists_body (string_quote s [])
  refine ⟨body, hbody, ?_⟩
  rw [List.append_nil, encode_quote, List.drop_succ_cons, List.drop_zero] at hbytes
  rw [encode_quote, hbytes, encode_ascii_cons (by decide), Utf8.encode_append]
  rfl

theorem resembles_number (n m : JsonNumber) : Resembles (.number n) (.number m) :=
  .scalar ⟨rfl, rfl, rfl, nofun⟩

mutual

/-- No number in the value is a double. -/
def Integral : Json → Prop
  | .number (.double _) => False
  | .array items => IntegralItems items
  | .object members => IntegralMembers members
  | _ => True

def IntegralItems : List Json → Prop
  | [] => True
  | v :: rest => Integral v ∧ IntegralItems rest

def IntegralMembers : List (String × Json) → Prop
  | [] => True
  | (_, v) :: rest => Integral v ∧ IntegralMembers rest

end

/-- Every text of the first value denotes the second, which is like the first, and is the first
unless there are doubles in it. -/
structure Rereads (v w : Json) : Prop where
  like : Resembles v w
  same : v.Integral → w = v
  denotes : ∀ {body : Bytes}, Written v body → ∃ cs, body = Utf8.encode cs ∧ Denotes cs w

structure RereadItems (items ws : List Json) : Prop where
  like : ResembleItems items ws
  same : IntegralItems items → ws = items
  denotes : ∀ {first : Bool} {body : Bytes}, WrittenItems first items body →
    ∃ cs, body = Utf8.encode cs ∧ DenotesItems first cs ws

structure RereadMembers (members pairs : List (String × Json)) : Prop where
  like : ResembleMembers members pairs
  same : IntegralMembers members → pairs = members
  denotes : ∀ {first : Bool} {body : Bytes}, WrittenMembers first members body →
    ∃ cs, body = Utf8.encode cs ∧ DenotesMembers first cs pairs

theorem exists_rereads_number (n : JsonNumber) : ∃ w, Rereads (.number n) w := by
  cases n with
  | word i =>
    obtain ⟨l, hchars, hvalue⟩ := exists_literal_word i
    refine ⟨.number (.word i), .refl _, fun _ => rfl, fun h => ?_⟩
    cases h
    exact ⟨l.chars, by rw [hchars, numberChars], .number l hvalue⟩
  | double x =>
    obtain ⟨l, m, hchars, hvalue⟩ := exists_literal_double x
    refine ⟨.number m, resembles_number _ m, False.elim, fun h => ?_⟩
    cases h
    exact ⟨l.chars, by rw [hchars, numberChars], .number l hvalue⟩

theorem rereads_string (s : String) : Rereads (.string s) (.string s) := by
  refine ⟨.refl _, fun _ => rfl, fun h => ?_⟩
  cases h
  obtain ⟨body, hbody, hquote⟩ := exists_content_quote s
  have hdenotes := Denotes.string hbody
  rw [String.ofList_toList] at hdenotes
  exact ⟨_, hquote, hdenotes⟩

theorem rereads_array {items ws : List Json} (h : RereadItems items ws) :
    Rereads (.array items) (.array ws) := by
  refine ⟨.array h.like, fun hi => congrArg Json.array (h.same hi), fun hw => ?_⟩
  cases hw with
  | array hw =>
    obtain ⟨cs, rfl, hdenotes⟩ := h.denotes hw
    exact ⟨_, (encode_ascii_cons (by decide) cs).symm, .array hdenotes⟩

theorem rereads_object {members pairs : List (String × Json)}
    (hd : (Members.keys members).Nodup) (h : RereadMembers members pairs) :
    Rereads (.object members) (.object pairs) := by
  have hkeys : (Members.keys pairs).Nodup := Shape.keys_of_resemble h.like ▸ hd
  refine ⟨.object h.like, fun hi => congrArg Json.object (h.same hi), fun hw => ?_⟩
  cases hw with
  | object hw =>
    obtain ⟨cs, rfl, hdenotes⟩ := h.denotes hw
    have hobject := Denotes.object hdenotes
    rw [Members.ofPairs_eq_self hkeys] at hobject
    exact ⟨_, (encode_ascii_cons (by decide) cs).symm, hobject⟩

theorem rereadItems_nil : RereadItems [] [] := by
  refine ⟨.nil, fun _ => rfl, fun hw => ?_⟩
  cases hw with
  | nil hbl =>
    obtain ⟨bl, hspace, rfl⟩ := exists_space_of_blanks hbl
    exact ⟨_, (Utf8.encode_append bl [']']).symm, .nil hspace⟩

theorem rereadItems_cons {v w : Json} {items ws : List Json} (hv : Rereads v w)
    (h : RereadItems items ws) : RereadItems (v :: items) (w :: ws) := by
  refine ⟨.cons hv.like h.like, fun hi => by rw [hv.same hi.1, h.same hi.2], fun hw => ?_⟩
  cases hw with
  | cons hs htext hmore =>
    obtain ⟨front, hfront, rfl⟩ := exists_separator_of_separates hs
    obtain ⟨cs, rfl, hdenotes⟩ := hv.denotes htext
    obtain ⟨more, rfl, hdenotesMore⟩ := h.denotes hmore
    exact ⟨_, by rw [Utf8.encode_append, Utf8.encode_append], .cons hfront hdenotes hdenotesMore⟩

theorem rereadMembers_nil : RereadMembers [] [] := by
  refine ⟨.nil, fun _ => rfl, fun hw => ?_⟩
  cases hw with
  | nil hbl =>
    obtain ⟨bl, hspace, rfl⟩ := exists_space_of_blanks hbl
    exact ⟨_, (Utf8.encode_append bl ['\x7d']).symm, .nil hspace⟩

theorem rereadMembers_cons (k : String) {v w : Json} {members pairs : List (String × Json)}
    (hv : Rereads v w) (h : RereadMembers members pairs) :
    RereadMembers ((k, v) :: members) ((k, w) :: pairs) := by
  refine ⟨.cons k hv.like h.like, fun hi => by rw [hv.same hi.1, h.same hi.2], fun hw => ?_⟩
  cases hw with
  | cons _ hs hbl hbl' htext hmore =>
    obtain ⟨front, hfront, rfl⟩ := exists_separator_of_separates hs
    obtain ⟨name, hname, hquote⟩ := exists_content_quote k
    obtain ⟨bl, hspace, rfl⟩ := exists_space_of_blanks hbl
    obtain ⟨bl', hspace', rfl⟩ := exists_space_of_blanks hbl'
    obtain ⟨cs, rfl, hdenotes⟩ := hv.denotes htext
    obtain ⟨more, rfl, hdenotesMore⟩ := h.denotes hmore
    have hmember := DenotesMembers.cons hfront hname hspace hspace' hdenotes hdenotesMore
    rw [String.ofList_toList] at hmember
    refine ⟨_, ?_, hmember⟩
    rw [hquote]
    simp only [Utf8.encode_append, encode_ascii_cons (c := '"') (by decide),
      encode_ascii_cons (c := ':') (by decide), List.append_assoc, List.cons_append,
      Utf8.encode_nil, List.nil_append]

mutual

/-- However a value is written, one and the same value is read back. -/
theorem exists_rereads : (v : Json) → v.Distinct → ∃ w, Rereads v w
  | .null, _ => ⟨_, .refl _, fun _ => rfl, fun | .null => ⟨_, rfl, .null⟩⟩
  | .bool _, _ => ⟨_, .refl _, fun _ => rfl, fun
    | .true => ⟨_, rfl, .true⟩
    | .false => ⟨_, rfl, .false⟩⟩
  | .number n, _ => exists_rereads_number n
  | .string s, _ => ⟨_, rereads_string s⟩
  | .array items, hd => (exists_rereadItems items hd).imp' _ fun _ => rereads_array
  | .object members, hd => (exists_rereadMembers members hd.2).imp' _ fun _ => rereads_object hd.1

theorem exists_rereadItems : (items : List Json) → DistinctItems items →
    ∃ ws, RereadItems items ws
  | [], _ => ⟨_, rereadItems_nil⟩
  | v :: items, hd => by
    obtain ⟨w, hv⟩ := exists_rereads v hd.1
    obtain ⟨ws, h⟩ := exists_rereadItems items hd.2
    exact ⟨_, rereadItems_cons hv h⟩

theorem exists_rereadMembers : (members : List (String × Json)) → DistinctMembers members →
    ∃ pairs, RereadMembers members pairs
  | [], _ => ⟨_, rereadMembers_nil⟩
  | (k, v) :: members, hd => by
    obtain ⟨w, hv⟩ := exists_rereads v hd.1
    obtain ⟨pairs, h⟩ := exists_rereadMembers members hd.2
    exact ⟨_, rereadMembers_cons k hv h⟩

end

end SchemaByExample.Json
