import SchemaByExample.Filter.Grammar
import SchemaByExample.Proofs.Filter.Cutting

/-! Terms of filters that are written for paths. Each bracketed part is read as a step whose key
is the string or the number in it, and the dot in front as the input. -/
namespace SchemaByExample.Filter

open Json

def Term.ofKey : Json.Step → Term
  | .member k => .string none (textPieces .text k.toList)
  | .item i => .number (String.ofList (Nat.toDigits 10 i))

def Step.ofKey (s : Json.Step) : Step := .key (Term.ofKey s) false

def Term.along (t : Term) : List Step → Term
  | [] => t
  | steps => .path t steps

def Term.ofPath (path : List Json.Step) : Term := Term.identity.along (path.map Step.ofKey)

namespace Grammar

variable {α β : Type} {tokens mid rest : List Token} {x : α} {y : β}

/-- The parser takes what it reads off the front, and notes no error. -/
def Takes (p : Parser α) (tokens : List Token) (x : α) (rest : List Token) : Prop :=
  ∀ errors, p ⟨tokens, errors⟩ = (.ok x, ⟨rest, errors⟩)

namespace Takes

theorem pure (x : α) (tokens : List Token) : Takes (Pure.pure x) tokens x tokens := fun _ => rfl

theorem bind {p : Parser α} {f : α → Parser β} (h : Takes p tokens x mid)
    (h' : Takes (f x) mid y rest) : Takes (p >>= f) tokens y rest := by
  intro errors
  have hstep : (p >>= f) ⟨tokens, errors⟩ = f x ⟨mid, errors⟩ := by
    simp only [Bind.bind, ExceptT.bind, ExceptT.mk, StateT.bind, h errors]
    rfl
  rw [hstep]
  exact h' errors

theorem ofState {f : State → Parser α} (h : ∀ errors, Takes (f ⟨tokens, errors⟩) tokens x rest) :
    Takes (get >>= f) tokens x rest := fun errors => h errors errors

theorem tryCatch {p : Parser α} {handler : Error → Parser α} (h : Takes p tokens x rest) :
    Takes (MonadExcept.tryCatch p handler) tokens x rest := by
  intro errors
  have hstep : MonadExcept.tryCatch p handler ⟨tokens, errors⟩ = p ⟨tokens, errors⟩ := by
    simp only [MonadExcept.tryCatch, tryCatchThe, MonadExceptOf.tryCatch, ExceptT.tryCatch,
      ExceptT.mk, Bind.bind, StateT.bind, h errors]
    rfl
  rw [hstep, h errors]

end Takes

theorem takes_next (t : Token) (rest : List Token) : Takes next? (t :: rest) (some t) rest :=
  fun _ => rfl

theorem takes_peek (tokens : List Token) : Takes peek? tokens tokens.head? tokens := fun _ => rfl

theorem takes_drop (t : Token) (rest : List Token) : Takes drop (t :: rest) () rest := fun _ => rfl

theorem takes_reset (tokens inner : List Token) :
    Takes (modify fun s => { s with tokens := inner }) tokens () inner := fun _ => rfl

theorem takes_other {s : String} (h : isMark s tokens.head? = false) :
    Takes (take? s) tokens false tokens := by
  refine (takes_peek tokens).bind ?_
  rw [h]
  exact .pure false tokens

theorem takes_need {s : String} {t : Token} (h : isMark s (some t) = true) (rest : List Token) :
    Takes (need s) (t :: rest) () rest := by
  refine (takes_next t rest).bind ?_
  rw [h]
  exact .pure () rest

/-- Reading a bracketed part takes nothing of what stands around it. -/
theorem takes_inside {inner : List Token} {closing : String} {t : Token} {p : Parser α}
    (missing : α) (h : Takes p inner x [t]) (ht : isMark closing (some t) = true)
    (tokens : List Token) : Takes (inside inner closing missing p) tokens x tokens := by
  have hpart : Takes (do let x ← p; need closing; return x) inner x [] :=
    h.bind ((takes_need ht []).bind (.pure x []))
  refine .ofState fun _ => ?_
  refine (takes_reset tokens inner).bind (hpart.tryCatch.bind ?_)
  exact (takes_reset [] tokens).bind (.pure x tokens)

theorem takes_questions (h : isMark "?" tokens.head? = false) (n : Nat) :
    Takes (questions n) tokens false tokens := by
  cases n with
  | zero => exact .pure false tokens
  | succ n => exact (takes_other h).bind (.pure false tokens)

theorem isMark_ofKey (mark : String) (s : Json.Step) :
    isMark mark (some (Token.ofKey s)) = false := by cases s <;> rfl

theorem isMark_brackets {mark : String} (path : List Json.Step) :
    isMark mark (path.map Token.ofBracket).head? = false := by cases path <;> rfl

def closing : Token := .symbol "]"

theorem takes_pieces (fuel : Nat) (cs : List Char) (tokens : List Token) :
    Takes (pieces (fuel + 1) (textPieces .text cs)) tokens (textPieces .text cs) tokens := by
  cases cs with
  | nil => exact .pure _ tokens
  | cons c cs =>
    have hnone : Takes (pieces fuel []) tokens [] tokens := by
      cases fuel <;> exact .pure _ tokens
    exact hnone.bind (.pure _ tokens)

theorem takes_head_key (fuel : Nat) (s : Json.Step) (tokens : List Token) :
    Takes (head (fuel + 2)) (Token.ofKey s :: tokens) (Term.ofKey s, []) tokens := by
  rw [head]
  refine (takes_next _ _).bind ?_
  cases s with
  | member k => exact (takes_pieces fuel k.toList tokens).bind (.pure _ tokens)
  | item i => exact .pure _ tokens

theorem takes_no_steps (fuel : Nat) : Takes (steps fuel) [closing] [] [closing] := by
  cases fuel with
  | zero => exact .pure _ _
  | succ fuel =>
    have hdot : "]".startsWith "." = false :=
      Bool.eq_false_iff.mpr fun h => absurd (String.startsWith_string_iff.mp h) (by decide)
    rw [steps]
    refine (takes_peek _).bind ?_
    simp only [closing, List.head?_cons, hdot, Bool.false_and, Bool.false_eq_true, if_false]
    exact .pure _ _

/-- A term ends where neither a pattern nor an operator follows. -/
theorem takes_term {fuel : Nat} {t : Term} (hatom : Takes (atom fuel) tokens t rest)
    (has : isMark "as" rest.head? = false) (hoperator : operator? true rest.head? = none) :
    Takes (term (fuel + 1) true) tokens t rest := by
  have hnone : ∀ n, Takes (joint? n true) rest none rest
    | 0 => .pure none rest
    | n + 1 => by
      rw [joint?]
      refine (takes_other has).bind ((takes_peek rest).bind ?_)
      rw [hoperator]
      exact .pure none rest
  have htail : ∀ n, Takes (tail n true) rest [] rest
    | 0 => .pure [] rest
    | n + 1 => by
      rw [tail]
      exact (hnone n).bind (.pure [] rest)
  rw [term]
  exact hatom.bind ((htail fuel).bind (.pure t rest))

theorem takes_atom {fuel : Nat} {t : Term} {first more : List Step}
    (hhead : Takes (head fuel) tokens (t, first) mid) (hmid : isMark "?" mid.head? = false)
    (hsteps : Takes (steps fuel) mid more rest) :
    Takes (atom (fuel + 1)) tokens (t.along (first ++ more)) rest := by
  have hlast : Takes (match first ++ more with
      | [] => return t
      | all => return .path t all : Parser Term) rest (t.along (first ++ more)) rest := by
    cases first ++ more <;> exact .pure _ rest
  rw [atom]
  refine hhead.bind ?_
  cases first with
  | nil =>
    refine .ofState fun _ => (takes_questions hmid _).bind ?_
    exact (Takes.pure t mid).bind (hsteps.bind hlast)
  | cons step first => exact (Takes.pure t mid).bind (hsteps.bind hlast)

/-- What stands in the brackets is a term by itself. -/
theorem takes_term_key (fuel : Nat) (s : Json.Step) :
    Takes (term (fuel + 4) true) [Token.ofKey s, closing] (Term.ofKey s) [closing] := by
  have hatom := takes_atom (takes_head_key fuel s [closing]) rfl (takes_no_steps (fuel + 2))
  exact takes_term hatom rfl rfl

theorem takes_bracketStep (fuel : Nat) (s : Json.Step) (h : isMark "?" tokens.head? = false) :
    Takes (bracketStep (fuel + 5) [Token.ofKey s, closing]) tokens (Step.ofKey s) tokens := by
  have hother (mark : String) :
      Takes (take? mark) [Token.ofKey s, closing] false [Token.ofKey s, closing] :=
    takes_other (isMark_ofKey mark s)
  rw [bracketStep]
  refine Takes.bind (x := Step.key (Term.ofKey s)) (takes_inside (t := closing) _ ?_ rfl tokens)
    (.ofState fun _ => (takes_questions h _).bind (.pure _ tokens))
  refine (takes_peek _).bind ?_
  rw [List.head?_cons, isMark_ofKey]
  exact (hother ":").bind ((takes_term_key fuel s).bind ((takes_other rfl).bind (.pure _ _)))

theorem startsWith_bracket (s : Json.Step) :
    (String.ofList (bracketChars s)).startsWith "[" = true := by
  have htext : (String.ofList (bracketChars s)).toList = bracketChars s := String.toList_ofList
  rw [String.startsWith_string_iff, htext]
  exact List.prefix_append ['['] _

theorem takes_steps (path : List Json.Step) {fuel : Nat} (h : path.length + 5 ≤ fuel) :
    Takes (steps fuel) (path.map Token.ofBracket) (path.map Step.ofKey) [] := by
  induction path generalizing fuel with
  | nil =>
    obtain ⟨fuel, rfl⟩ : ∃ n, fuel = n + 1 := Nat.exists_eq_add_of_le' (by omega)
    rw [steps]
    exact (takes_peek _).bind (.pure _ _)
  | cons s path ih =>
    rw [List.length_cons] at h
    -- what is left must be enough for the calls that lead from a step to the term of its key
    obtain ⟨fuel, rfl⟩ : ∃ n, fuel = n + 6 := Nat.exists_eq_add_of_le' (by omega)
    rw [List.map_cons, steps]
    refine (takes_peek _).bind ?_
    simp only [Token.ofBracket, List.head?_cons, startsWith_bracket, if_true]
    refine (takes_drop _ _).bind ((takes_bracketStep fuel s (isMark_brackets path)).bind ?_)
    exact (ih (by omega)).bind (.pure _ _)

/-- The dot takes the first step with it. -/
theorem takes_head_dot (fuel : Nat) (path : List Json.Step) :
    Takes (head (fuel + 6)) (.symbol "." :: path.map Token.ofBracket)
      (.identity, (path.take 1).map Step.ofKey) ((path.drop 1).map Token.ofBracket) := by
  rw [head]
  refine (takes_next _ _).bind ?_
  simp only [String.reduceEq, if_false, if_true]
  refine (takes_peek _).bind ?_
  cases path with
  | nil => exact .pure _ _
  | cons s path =>
    simp only [List.map_cons, Token.ofBracket, List.head?_cons, startsWith_bracket, if_true]
    refine (takes_drop _ _).bind ?_
    exact (takes_bracketStep fuel s (isMark_brackets path)).bind (.pure _ _)

theorem takes_whole (path : List Json.Step) {fuel : Nat} (h : path.length + 8 ≤ fuel) :
    Takes (whole fuel) (.symbol "." :: path.map Token.ofBracket) ([], Term.ofPath path) [] := by
  obtain ⟨fuel, rfl⟩ : ∃ n, fuel = n + 8 := Nat.exists_eq_add_of_le' (by omega)
  have hmodules : Takes (modules (fuel + 8)) (.symbol "." :: path.map Token.ofBracket) []
      (.symbol "." :: path.map Token.ofBracket) := by
    rw [modules]
    exact (takes_peek _).bind (.pure _ _)
  have hsteps : Takes (steps (fuel + 6)) ((path.drop 1).map Token.ofBracket)
      ((path.drop 1).map Step.ofKey) [] :=
    takes_steps _ (by rw [List.length_drop]; omega)
  have hatom := takes_atom (takes_head_dot fuel path) (isMark_brackets _) hsteps
  rw [← List.map_append, List.take_append_drop] at hatom
  rw [whole]
  refine (takes_other rfl).bind (hmodules.bind ((takes_term hatom rfl rfl).bind ?_))
  exact (takes_peek _).bind (.pure _ _)

end Grammar

end SchemaByExample.Filter
