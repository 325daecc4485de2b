import SchemaByExample.Proofs.Json.Path
import SchemaByExample.Proofs.Json.Rereading

/-! Where a text is at fault. If what stands before a part of a value can be read and the part
cannot, the reader fails at the path of the part, whatever stands behind it. -/
namespace SchemaByExample

namespace Read

open Json Literal

variable {α β : Type} {cause : Cause} {path : List Segment}

def FailsAt (cause : Cause) (path : List Segment) (x : Except Failure α) : Prop :=
  ∃ left, x = .error ⟨cause, path, left⟩

theorem failsAt_fail (cause : Cause) (rest : Bytes) :
    FailsAt cause [] (fail cause rest : Except Failure α) := ⟨_, rfl⟩

theorem failsAt_failPast (cause : Cause) (rest : Bytes) :
    FailsAt cause [] (failPast cause rest : Except Failure α) := ⟨_, rfl⟩

namespace FailsAt

variable {x : Except Failure α}

theorem bind (h : FailsAt cause path x) (g : α → Except Failure β) :
    FailsAt cause path (x >>= g) := by
  obtain ⟨left, rfl⟩ := h
  exact ⟨left, rfl⟩

theorem inside (h : FailsAt cause path x) (segment : Segment) :
    FailsAt cause (segment :: path) (Read.inside segment x) := by
  obtain ⟨left, rfl⟩ := h
  exact ⟨left, rfl⟩

end FailsAt

def Starts (p : UInt8 → Prop) (text : List Char) : Prop :=
  ∃ b tail, Utf8.encode text = b :: tail ∧ p b

theorem Starts.append {p : UInt8 → Prop} {text : List Char} (h : Starts p text)
    (more : List Char) : Starts p (text ++ more) := by
  obtain ⟨b, tail, htext, hb⟩ := h
  exact ⟨b, tail ++ Utf8.encode more, by rw [Utf8.encode_append, htext]; rfl, hb⟩

abbrev Opens : List Char → Prop := Starts fun b => isBlank b = false ∧ b ≠ byte ']'

def Passes (value : Bytes → Except Failure (α × Bytes)) (text : List Char) : Prop :=
  ∀ rest, endsValue rest = true → ∃ a, value (Utf8.encode text ++ rest) = .ok (a, rest)

def ended (texts : List (List Char)) : List Char := texts.flatMap (· ++ [','])

/-- There is a byte for each of the texts. -/
theorem length_lt_ended (texts : List (List Char)) (more : Bytes) :
    texts.length < (Utf8.encode (ended texts) ++ more).length + 1 := by
  induction texts with
  | nil => exact Nat.succ_pos _
  | cons t texts ih =>
    have hcomma : Utf8.encode [','] = [byte ','] := rfl
    rw [ended, List.flatMap_cons, ← ended, Utf8.encode_append, Utf8.encode_append, hcomma]
    simp only [List.length_append, List.length_cons, List.length_nil] at ih ⊢
    omega

def comma (first : Bool) : List Char := if first then [] else [',']

theorem separates_comma (first : Bool) : Separates first (Utf8.encode (comma first)) := by
  cases first with
  | true => exact .first .nil
  | false => exact .next .nil .nil

theorem comma_ended (first : Bool) (t : List Char) (texts : List (List Char)) :
    comma first ++ ended (t :: texts) = comma first ++ (t ++ (comma false ++ ended texts)) := by
  rw [ended, List.flatMap_cons, ← ended, List.append_assoc]
  rfl

theorem endsValue_comma (cs : List Char) (rest : Bytes) :
    endsValue (Utf8.encode (comma false ++ cs) ++ rest) = true := rfl

section Loops

variable {value : Bytes → Except Failure (α × Bytes)} {hole : List Char} {rest : Bytes}

/-- The items before are read, and so the fault is that of the item. -/
theorem items_fails {texts : List (List Char)} (ht : ∀ t ∈ texts, Opens t ∧ Passes value t)
    (ho : Opens hole) (hfail : FailsAt cause path (value (Utf8.encode hole ++ rest)))
    (first : Bool) {fuel : Nat} (i : Nat) (hf : texts.length < fuel) :
    FailsAt cause (.index (i + texts.length) :: path)
      (items value fuel i first
        (Utf8.encode (comma first ++ ended texts) ++ (Utf8.encode hole ++ rest))) := by
  induction texts generalizing first fuel i with
  | nil =>
    obtain ⟨fuel, rfl⟩ := Nat.exists_eq_add_one_of_ne_zero (Nat.ne_zero_of_lt hf)
    obtain ⟨b, tail, hhole, hb, hne⟩ := ho
    have hnext := nextItem_cons (separates_comma first) hb hne (tail ++ rest)
    rw [ended, List.flatMap_nil, List.append_nil, items]
    rw [hhole, List.cons_append] at hfail ⊢
    rw [hnext]
    exact (hfail.inside (.index i)).bind _
  | cons t texts ih =>
    obtain ⟨fuel, rfl⟩ := Nat.exists_eq_add_one_of_ne_zero (Nat.ne_zero_of_lt hf)
    obtain ⟨⟨⟨b, tail, htext, hb, hne⟩, hpasses⟩, hts⟩ := List.forall_mem_cons.mp ht
    obtain ⟨a, ha⟩ := hpasses
      (Utf8.encode (comma false ++ ended texts) ++ (Utf8.encode hole ++ rest)) (endsValue_comma _ _)
    have hlater := ih hts false (i + 1) (Nat.lt_of_succ_lt_succ hf)
    have hplace : i + (t :: texts).length = i + 1 + texts.length := by
      rw [List.length_cons]
      omega
    rw [comma_ended, Utf8.encode_append, Utf8.encode_append, List.append_assoc, List.append_assoc,
      items, hplace]
    rw [htext, List.cons_append] at ha ⊢
    rw [nextItem_cons (separates_comma first) hb hne]
    simp only [ok_bind, if_true, ha]
    exact hlater.bind _

theorem array_fails {texts : List (List Char)} (ht : ∀ t ∈ texts, Opens t ∧ Passes value t)
    (ho : Opens hole) (hfail : FailsAt cause path (value (Utf8.encode hole ++ rest))) :
    FailsAt cause (.index texts.length :: path)
      (Read.array value (Utf8.encode (ended texts) ++ (Utf8.encode hole ++ rest))) := by
  have hfuel := length_lt_ended texts (Utf8.encode hole ++ rest)
  have hitems := items_fails ht ho hfail true 0 hfuel
  rw [Nat.zero_add] at hitems
  exact hitems.bind _

def entryChars (p : String × List Char) : List Char := quote p.1 ++ ':' :: p.2

theorem encode_named (p : String × List Char) :
    Utf8.encode (entryChars p) = Utf8.encode (quote p.1) ++ byte ':' :: Utf8.encode p.2 := by
  rw [entryChars, Utf8.encode_append, encode_ascii_cons (by decide)]

theorem colon_cons (rest : Bytes) : colon (byte ':' :: rest) = .ok ((), rest) :=
  colon_blanks .nil rest

/-- A name in front is read, and the value behind it is next. -/
theorem nextKey_named (first : Bool) (p : String × List Char) (rest : Bytes) :
    nextKey first (Utf8.encode (comma first) ++ (Utf8.encode (entryChars p) ++ rest)) =
      .ok (some p.1, byte ':' :: (Utf8.encode p.2 ++ rest)) := by
  rw [encode_named, List.append_assoc]
  exact nextKey_member (separates_comma first) p.1 _

theorem members_fails {texts : List (String × List Char)} (ht : ∀ p ∈ texts, Passes value p.2)
    {k : String} (hfail : FailsAt cause path (value (Utf8.encode hole ++ rest)))
    (first : Bool) {fuel : Nat} (hf : texts.length < fuel) :
    FailsAt cause (.key k :: path)
      (members value fuel first
        (Utf8.encode (comma first ++ ended (texts.map entryChars)) ++
          (Utf8.encode (entryChars (k, hole)) ++ rest))) := by
  induction texts generalizing first fuel with
  | nil =>
    obtain ⟨fuel, rfl⟩ := Nat.exists_eq_add_one_of_ne_zero (Nat.ne_zero_of_lt hf)
    rw [List.map_nil, ended, List.flatMap_nil, List.append_nil, members, nextKey_named]
    simp only [ok_bind, colon_cons]
    exact (hfail.inside (.key k)).bind _
  | cons p texts ih =>
    obtain ⟨fuel, rfl⟩ := Nat.exists_eq_add_one_of_ne_zero (Nat.ne_zero_of_lt hf)
    obtain ⟨hpasses, hts⟩ := List.forall_mem_cons.mp ht
    obtain ⟨a, ha⟩ := hpasses
      (Utf8.encode (comma false ++ ended (texts.map entryChars)) ++
        (Utf8.encode (entryChars (k, hole)) ++ rest)) (endsValue_comma _ _)
    have hlater := ih hts false (Nat.lt_of_succ_lt_succ hf)
    rw [List.map_cons, comma_ended, Utf8.encode_append, Utf8.encode_append, List.append_assoc,
      List.append_assoc, members, nextKey_named]
    simp only [ok_bind, colon_cons, ha]
    exact hlater.bind _

theorem object_fails {texts : List (String × List Char)} (ht : ∀ p ∈ texts, Passes value p.2)
    (k : String) (hfail : FailsAt cause path (value (Utf8.encode hole ++ rest))) :
    FailsAt cause (.key k :: path)
      (Read.object value (Utf8.encode (ended (texts.map entryChars)) ++
        (Utf8.encode (entryChars (k, hole)) ++ rest))) := by
  have hfuel := length_lt_ended (texts.map entryChars) (Utf8.encode (entryChars (k, hole)) ++ rest)
  rw [List.length_map] at hfuel
  exact (members_fails ht hfail true hfuel).bind _

end Loops

end Read

namespace Json

open Read Literal

/-! Compact text, part by part. -/

def compactChars (v : Json) : List Char := render .compact 0 v

def led (texts : List (List Char)) : List Char := texts.flatMap (',' :: ·)

def enclosed (left right : Char) : List (List Char) → List Char
  | [] => [left, right]
  | t :: texts => left :: (t ++ (led texts ++ [right]))

theorem append_led (t : List Char) (texts : List (List Char)) :
    t ++ (led texts ++ [',']) = ended (t :: texts) := by
  induction texts generalizing t with
  | nil => simp [led, ended]
  | cons u texts ih =>
    have hrest := ih u
    simp only [led, ended, List.flatMap_cons, List.cons_append, List.append_assoc] at hrest ⊢
    rw [hrest]
    rfl

theorem enclosed_append (left right : Char) (before : List (List Char)) (t : List Char)
    (after : List (List Char)) :
    enclosed left right (before ++ t :: after) =
      left :: (ended before ++ (t ++ (led after ++ [right]))) := by
  cases before with
  | nil => rfl
  | cons b before =>
    have hled : led (before ++ t :: after) = led before ++ ([','] ++ (t ++ led after)) := by
      simp [led]
    rw [List.cons_append, enclosed, hled, ← append_led]
    simp only [List.append_assoc]

mutual

theorem render_compact (d : Nat) : (v : Json) → render .compact d v = compactChars v
  | .null => by rw [compactChars, render, render]
  | .bool b => by cases b <;> rw [compactChars, render, render]
  | .number n => by rw [compactChars, render, render]
  | .string s => by rw [compactChars, render, render]
  | .array [] => by rw [compactChars, render, render]
  | .array (v :: rest) => by
    rw [compactChars, render, render, render_compact, render_compact, renderItems_compact,
      renderItems_compact]
    rfl
  | .object [] => by rw [compactChars, render, render]
  | .object ((k, v) :: rest) => by
    rw [compactChars, render, render, render_compact, render_compact, renderMembers_compact,
      renderMembers_compact]
    rfl

theorem renderItems_compact (d : Nat) : (items : List Json) →
    renderItems .compact d items = led (items.map compactChars)
  | [] => by rw [renderItems]; rfl
  | v :: rest => by
    rw [renderItems, render_compact, renderItems_compact]
    rfl

theorem renderMembers_compact (d : Nat) : (members : List (String × Json)) →
    renderMembers .compact d members =
      led (members.map fun p => entryChars (p.1, compactChars p.2))
  | [] => by rw [renderMembers]; rfl
  | (k, v) :: rest => by
    rw [renderMembers, render_compact, renderMembers_compact]
    simp [Spacing.compact, led, entryChars]

end

theorem compactChars_array (items : List Json) :
    compactChars (.array items) = enclosed '[' ']' (items.map compactChars) := by
  cases items with
  | nil => rw [compactChars, render]; rfl
  | cons v rest =>
    rw [compactChars, render, render_compact, renderItems_compact]
    simp [Spacing.compact, enclosed]

theorem compactChars_object (members : List (String × Json)) :
    compactChars (.object members) =
      enclosed '\x7b' '\x7d' (members.map fun p => entryChars (p.1, compactChars p.2)) := by
  cases members with
  | nil => rw [compactChars, render]; rfl
  | cons p rest =>
    rw [compactChars, render, render_compact, renderMembers_compact]
    simp [Spacing.compact, enclosed, entryChars]

/-- The compact text of a value before the part at a path, and behind it. -/
inductive Around : List Step → Json → Json → List Char → List Char → Prop
  | here (v : Json) : Around [] v v [] []
  | item {path : List Step} {v w : Json} {front back : List Char} (before after : List Json) :
      Around path v w front back →
        Around (.item before.length :: path) (.array (before ++ v :: after)) w
          ('[' :: (ended (before.map compactChars) ++ front))
          (back ++ (led (after.map compactChars) ++ [']']))
  | member {path : List Step} {v w : Json} {front back : List Char}
      (before : List (String × Json)) (k : String) (after : List (String × Json)) :
      Around path v w front back →
        Around (.member k :: path) (.object (before ++ (k, v) :: after)) w
          ('\x7b' :: (ended (before.map fun p => entryChars (p.1, compactChars p.2)) ++
            entryChars (k, front)))
          (back ++ (led (after.map fun p => entryChars (p.1, compactChars p.2)) ++ ['\x7d']))

theorem named_append (k : String) (cs ds : List Char) :
    entryChars (k, cs) ++ ds = entryChars (k, cs ++ ds) := List.append_assoc _ _ _

/-- With the text of the part between the two it is the whole text. -/
theorem Around.compactChars_eq {path : List Step} {v w : Json} {front back : List Char}
    (h : Around path v w front back) : v.compactChars = front ++ (w.compactChars ++ back) := by
  induction h with
  | here v => exact (List.append_nil _).symm
  | item before after _ ih =>
    rw [compactChars_array, List.map_append, List.map_cons, enclosed_append, ih]
    simp only [List.cons_append, List.append_assoc]
  | member before k after _ ih =>
    rw [compactChars_object, List.map_append, List.map_cons, enclosed_append, ih]
    simp only [List.cons_append, List.append_assoc, named_append]

theorem exists_around {path : List Step} {v w : Json} (h : at? path v = some w) :
    ∃ front back, Around path v w front back := by
  induction path generalizing v with
  | nil =>
    cases h
    exact ⟨_, _, .here w⟩
  | cons s path ih =>
    obtain ⟨u, hu, hw⟩ := exists_stepsTo h
    obtain ⟨front, back, haround⟩ := ih hw
    cases hu with
    | @member k members u hu =>
      obtain ⟨before, after, rfl⟩ := List.append_of_mem (Members.mem_of_find? hu)
      exact ⟨_, _, .member before k after haround⟩
    | @item i items u hu =>
      obtain ⟨hi, rfl⟩ := List.getElem?_eq_some_iff.mp hu
      have hlength : (items.take i).length = i := List.length_take_of_le (Nat.le_of_lt hi)
      have hitem := Around.item (items.take i) (items.drop (i + 1)) haround
      rw [hlength, ← List.drop_eq_getElem_cons hi, List.take_append_drop] at hitem
      exact ⟨_, _, hitem⟩

theorem opens_compact (v : Json) : Opens v.compactChars := by
  obtain ⟨b, tail, htext, hb⟩ := opens_of_written (written_render blank_compact 0 v)
  obtain ⟨hblank, hne, -⟩ := of_opens hb
  exact ⟨b, tail, htext, hblank, hne⟩

/-- A text begins with a bracket or with the literal that takes the place of the part. -/
theorem Around.starts {path : List Step} {v w : Json} {front back literal : List Char}
    (h : Around path v w front back) {p : UInt8 → Prop} (hbracket : p (byte '['))
    (hbrace : p (byte '\x7b')) (hp : Starts p literal) :
    Starts p (front ++ (literal ++ back)) := by
  cases h with
  | here => exact hp.append []
  | item => exact ⟨_, _, encode_ascii_cons (by decide) _, hbracket⟩
  | member => exact ⟨_, _, encode_ascii_cons (by decide) _, hbrace⟩

theorem Around.opens {path : List Step} {v w : Json} {front back literal : List Char}
    (h : Around path v w front back) (ho : Opens literal) : Opens (front ++ (literal ++ back)) :=
  h.starts (by decide) (by decide) ho

/-- A value's text can be passed, whatever value is read back from it. -/
theorem passes_compact {v : Json} (hd : v.Distinct) {budget : Nat} (hle : v.depth ≤ budget) :
    Passes (read budget) v.compactChars := by
  intro rest hr
  obtain ⟨w, hw⟩ := exists_rereads v hd
  obtain ⟨cs, hcs, hdenotes⟩ := hw.denotes (written_render blank_compact 0 v)
  obtain ⟨n, hlegible⟩ := legible_of_denotes hdenotes
  have hnesting := nesting_render blank_compact 0 v
  rw [hcs, hlegible.nests.nesting_eq] at hnesting
  have hread := (hlegible.reads budget hr).ok (hnesting ▸ hle)
  rw [← hcs] at hread
  exact ⟨w, hread⟩

theorem endsValue_led (texts : List (List Char)) {right : Char}
    (hright : right = ']' ∨ right = '\x7d') (rest : Bytes) :
    endsValue (Utf8.encode (led texts ++ [right]) ++ rest) = true := by
  cases texts with
  | nil => obtain rfl | rfl := hright <;> rfl
  | cons t texts => rfl

/-- A part of a container is written behind the bracket and what comes before. -/
theorem encode_part {left : Char} (hleft : left.val.toNat < 0x80) (before front literal back after :
    List Char) (rest : Bytes) :
    Utf8.encode (left :: (before ++ front) ++ (literal ++ (back ++ after))) ++ rest =
      byte left :: (Utf8.encode before ++
        (Utf8.encode (front ++ (literal ++ back)) ++ (Utf8.encode after ++ rest))) := by
  rw [List.cons_append, encode_ascii_cons hleft]
  simp only [Utf8.encode_append, List.append_assoc, List.cons_append]

def Step.segment : Step → Segment
  | .member k => .key k
  | .item i => .index i

/-- A literal that cannot be read, in the place of a part, is the fault of the text. -/
theorem read_fails {path : List Step} {v w : Json} {front back : List Char}
    (h : Around path v w front back) (hd : v.Distinct) {budget : Nat} (hle : v.depth ≤ budget)
    {literal : List Char} {cause : Cause} (ho : Opens literal)
    (hfail : ∀ budget rest, endsValue rest = true →
      FailsAt cause [] (read budget (Utf8.encode literal ++ rest)))
    {rest : Bytes} (hr : endsValue rest = true) :
    FailsAt cause (path.map Step.segment)
      (read budget (Utf8.encode (front ++ (literal ++ back)) ++ rest)) := by
  induction h generalizing budget rest with
  | here v =>
    rw [List.nil_append, List.append_nil]
    exact hfail budget rest hr
  | item before after h ih =>
    cases budget with
    | zero => exact absurd hle (Nat.not_succ_le_zero _)
    | succ budget =>
      rw [depth_array_le_succ, List.forall_mem_append, List.forall_mem_cons] at hle
      have hbefore : ∀ t ∈ before.map Json.compactChars, Opens t ∧ Passes (read budget) t :=
        List.forall_mem_map.mpr fun x hx =>
          ⟨opens_compact x, passes_compact (hd.item (List.mem_append_left _ hx)) (hle.1 x hx)⟩
      have hpart := ih (hd.item (List.mem_append_right _ List.mem_cons_self)) hle.2.1
        (endsValue_led (after.map Json.compactChars) (.inl rfl) rest)
      have harray := array_fails hbefore (h.opens ho) hpart
      rw [List.length_map] at harray
      rw [encode_part (by decide), read_bracket]
      exact harray.bind _
  | member before k after h ih =>
    cases budget with
    | zero => exact absurd hle (Nat.not_succ_le_zero _)
    | succ budget =>
      rw [depth_object_le_succ, List.forall_mem_append, List.forall_mem_cons] at hle
      have hbefore : ∀ p ∈ before.map fun p => (p.1, p.2.compactChars),
          Passes (read budget) p.2 :=
        List.forall_mem_map.mpr fun p hp =>
          passes_compact (hd.member (List.mem_append_left _ hp)) (hle.1 p hp)
      have hpart := ih (hd.member (List.mem_append_right _ List.mem_cons_self)) hle.2.1
        (endsValue_led (after.map fun p => entryChars (p.1, p.2.compactChars)) (.inr rfl) rest)
      have hobject := object_fails hbefore k hpart
      rw [List.map_map] at hobject
      rw [encode_part (by decide), named_append, read_brace]
      exact hobject.bind _

/-! A number beyond all doubles. -/

theorem opens_number (l : NumberLiteral) : Opens l.chars := by
  obtain ⟨b, tail, hb, hdigit⟩ := digits_cons l.whole
    (Utf8.encode (fractionChars l.fraction ++ exponentChars l.exponent))
  have hunsigned : Utf8.encode l.unsigned = b :: tail := by
    rw [NumberLiteral.unsigned, Utf8.encode_append, hb]
  have hopens : (Json.number (.word ⟨0, by decide, by decide⟩)).opens b = true := by
    simp [opens, hdigit]
  obtain ⟨hblank, hclose, -⟩ := of_opens hopens
  rw [NumberLiteral.chars]
  split
  · exact ⟨_, _, encode_ascii_cons (by decide) _, by decide, by decide⟩
  · exact ⟨b, tail, hunsigned, hblank, hclose⟩

theorem read_beyond {l : NumberLiteral} (h : l.value? = none) (budget : Nat) {rest : Bytes}
    (hr : endsValue rest = true) :
    FailsAt .numberOutOfRange [] (read budget (Utf8.encode l.chars ++ rest)) := by
  have hnumber : FailsAt .numberOutOfRange []
      (Literal.number l.negative (Utf8.encode l.unsigned ++ rest)) := number_beyond l h hr
  cases hnegative : l.negative with
  | true =>
    rw [NumberLiteral.chars, if_pos hnegative, encode_ascii_cons (by decide), List.cons_append,
      read_minus]
    exact (hnegative ▸ hnumber).bind _
  | false =>
    obtain ⟨b, tail, hb, hdigit⟩ := digits_cons l.whole
      (Utf8.encode (fractionChars l.fraction ++ exponentChars l.exponent) ++ rest)
    have hunsigned : Utf8.encode l.unsigned ++ rest = b :: tail := by
      rw [NumberLiteral.unsigned, Utf8.encode_append, List.append_assoc, hb]
    rw [NumberLiteral.chars, if_neg (by simp [hnegative])]
    rw [hnegative, hunsigned] at hnumber
    rw [hunsigned, read_digit _ _ hdigit]
    exact hnumber.bind _

end Json

/-- Of what a reader fails at, the text is refused with the path. -/
theorem readWhole_fails {α : Type} {value : Bytes → Except Failure (α × Bytes)} {cause : Cause}
    {path : List Segment} {text : List Char}
    (h : Read.FailsAt cause path (value (Utf8.encode text ++ []))) :
    ∃ e, readWhole value (Utf8.ofString (String.ofList text)) = .error e ∧ e.cause = cause ∧
      e.path = some path := by
  obtain ⟨left, h⟩ := h
  rw [List.append_nil] at h
  rw [Utf8.ofString, String.toList_ofList, readWhole, h]
  exact ⟨_, rfl, rfl, rfl⟩

theorem ReadError.message_of_path {e : ReadError} {path : List Segment} (h : e.path = some path) :
    e.message = "at JSON path " ++ Path.text path ++ " → " ++ e.reason := by
  rw [ReadError.message, h]

/-- The cause, and behind it the place in the text. -/
theorem ReadError.exists_reason (e : ReadError) : ∃ place, e.reason = e.cause.text ++ place := by
  refine ⟨" at line " ++ (toString e.place.line ++ (" column " ++ toString e.place.column)), ?_⟩
  rw [ReadError.reason, String.append_assoc, String.append_assoc, String.append_assoc]

end SchemaByExample
