import BlockWalk.Proofs.JsonText

/-!
# JSON over several lines

Blanks between tokens do not matter to a reader, so a value that is written over several lines is
read back like one that is written without any (`Json.ofText?_pretty`). Where a line ends, a token
has ended: a word or number is followed by a comma, a bracket or a new line. This is what makes
parts that are written on their own fit together (`Json.Token.Written`).
-/

namespace BlockWalk.Json

namespace Token

/-! ## Texts with blanks -/

/-- A character that stands between tokens. -/
def Blank (c : Char) : Prop := c = ' ' ∨ c = '\n' ∨ c = '\t' ∨ c = '\r'

variable {π : List Char} {ts : List Token}

/-- Blanks before a text. -/
theorem Written.indent {β : List Char} (blank : ∀ c ∈ β, Blank c) (h : Written π ts) :
    Written (β ++ π) ts := by
  intro σ later hσ rest
  induction β with
  | nil => exact h σ later hσ rest
  | cons c β ih =>
    obtain ⟨hc, hβ⟩ := List.forall_mem_cons.1 blank
    exact .blank hc (ih hβ)

/-- Parts with commas and blanks between them. -/
theorem written_intercalate {α : Type} {β : List Char} (blank : ∀ c ∈ β, Blank c)
    {f : α → List Char} {g : α → List Token} {parts : List α}
    (h : ∀ a ∈ parts, Written (f a) (g a)) :
    Written (List.intercalate (',' :: β) (parts.map f))
      (List.intercalate [.comma] (parts.map g)) := by
  match parts with
  | [] => exact fun σ later _ rest => rest
  | [a] =>
    rw [List.map_singleton, List.map_singleton, List.intercalate_singleton,
      List.intercalate_singleton]
    exact h a List.mem_cons_self
  | a :: b :: parts =>
    obtain ⟨ha, hparts⟩ := List.forall_mem_cons.1 h
    have later := written_intercalate blank hparts
    rw [List.map_cons, List.map_cons, List.map_cons, List.map_cons, List.intercalate_cons_cons,
      List.intercalate_cons_cons, List.append_assoc, List.append_assoc]
    exact ha.append (.cons (t := .comma) trivial id (later.indent blank)) fun σ =>
      apart_cons _ rfl rfl

end Token

open Token

/-! ## Values over several lines -/

theorem blank_of_mem_newLine {n : Nat} {c : Char} (h : c ∈ (newLine n).toList) : Blank c := by
  rw [newLine, String.toList_ofList] at h
  rcases List.mem_cons.1 h with rfl | h
  · exact .inr (.inl rfl)
  · exact .inl (List.eq_of_mem_replicate h)

/-- A new line begins with the end of a line. -/
theorem apart_newLine (n : Nat) (π σ : List Char) : Apart ((newLine n).toList ++ π ++ σ) := by
  rw [newLine, String.toList_ofList]
  exact apart_cons _ rfl rfl

/-- Parts on lines of their own, between brackets. -/
theorem written_block {α : Type} {f : α → String} {g : α → List Token} {parts : List α} {n : Nat}
    (left right : Token) (hl : left.Exact ∧ ¬left.Solid) (hr : right.Exact)
    (h : ∀ a ∈ parts, Written (f a).toList (g a)) :
    Written (left.text ++ newLine (n + 1)
        ++ String.intercalate ("," ++ newLine (n + 1)) (parts.map f) ++ newLine n
        ++ right.text).toList
      (left :: (List.intercalate [.comma] (parts.map g) ++ [right])) := by
  have inner : Written (List.intercalate (',' :: (newLine (n + 1)).toList)
      (parts.map fun a => (f a).toList)) _ :=
    written_intercalate (fun _ => blank_of_mem_newLine) h
  have last : Written ((newLine n).toList ++ right.text.toList) [right] :=
    (written_token hr).indent fun _ => blank_of_mem_newLine
  have lines := Written.cons hl.1 hl.2
    ((inner.append last (apart_newLine n _)).indent fun _ => blank_of_mem_newLine (n := n + 1))
  have text : (left.text ++ newLine (n + 1)
        ++ String.intercalate ("," ++ newLine (n + 1)) (parts.map f) ++ newLine n
        ++ right.text).toList
      = left.text.toList ++ ((newLine (n + 1)).toList
        ++ (List.intercalate (',' :: (newLine (n + 1)).toList) (parts.map fun a => (f a).toList)
          ++ ((newLine n).toList ++ right.text.toList))) := by
    simp [String.toList_intercalate, Function.comp_def]
  rw [text]
  exact lines

/-- **The text of a value over several lines is a way to write its tokens.** -/
theorem written_pretty {v : Json} (h : v.FloatFree) (n : Nat) :
    Written (v.prettyAt n).toList v.tokens := by
  induction h generalizing n with
  | null =>
    rw [prettyAt, tokens]
    exact written_token (t := .null) trivial
  | bool b =>
    rw [prettyAt, tokens]
    exact written_token trivial
  | int k lower upper =>
    rw [prettyAt, tokens]
    exact written_token (t := .num (.int k lower upper)) trivial
  | str s =>
    rw [prettyAt, tokens]
    exact written_token (t := .str s) trivial
  | @arr items _ ih =>
    rw [prettyAt, tokens_arr]
    cases items with
    | nil =>
      have both :=
        Written.cons (t := .openArray) trivial id (written_token (t := .closeArray) trivial)
      simpa [Token.text, List.intercalate] using both
    | cons v items =>
      exact written_block .openArray .closeArray ⟨trivial, id⟩ trivial fun v hv => ih v hv (n + 1)
  | @obj members _ ih =>
    rw [prettyAt, tokens_obj]
    cases members with
    | nil =>
      have both :=
        Written.cons (t := .openObject) trivial id (written_token (t := .closeObject) trivial)
      simpa [Token.text, List.intercalate] using both
    | cons e members =>
      refine written_block .openObject .closeObject ⟨trivial, id⟩ trivial fun e he => ?_
      have blank : ∀ c ∈ [' '], Blank c := List.forall_mem_singleton.2 (.inl rfl)
      have value := (ih e he (n + 1)).indent blank
      have member := Written.cons (t := .str e.1) trivial id
        (Written.cons (t := .colon) trivial id value)
      rw [String.toList_append, String.toList_append, List.append_assoc]
      exact member

/-- **A value is read back from its lines**, if no number in it is a floating point number, its
members are in order and it is not nested too deep. -/
theorem ofText?_pretty {v : Json} (exact : v.FloatFree) (tidy : v.Tidy maxDepth) :
    ofText? (v.pretty ++ "\n") = some v := by
  have ends : Spells ['\n'] [] := .blank (.inr (.inl rfl)) .nil
  have spells := written_pretty exact 0 ['\n'] [] (apart_cons _ rfl rfl) ends
  rw [List.append_nil] at spells
  have text : (v.pretty ++ "\n").toList = (v.prettyAt 0).toList ++ ['\n'] := String.toList_append
  rw [ofText?, text, scan?_of_spells spells]
  exact ofTokens?_tokens tidy.1 tidy.2

end BlockWalk.Json
