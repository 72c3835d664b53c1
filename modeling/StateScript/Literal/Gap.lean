/-
Gaps: what may stand between the parts of a literal. A gap is made of white space, comments that end
with their line, and comments between `/*` and `*/`.
-/
import StateScript.Literal.Failure
import StateScript.Text.Blank
import StateScript.Text.Taken

namespace StateScript.Literal

open Text

/-- The text behind the next line feed, or nothing. -/
def lineRest : (text : List Char) → Reached Unit text
  | [] => .nothing () []
  | c :: text => if c = '\n' then .first () c text else (lineRest text).behind c

/-- The text behind the next end of a comment. -/
def commentRest? : (text : List Char) → Option (Reached Unit text)
  | [] => none
  | '*' :: '/' :: text => some ⟨(), text, by simp only [List.length_cons]; omega⟩
  | c :: text => (commentRest? text).map (·.behind c)

/-- The gap that a text begins with. -/
def gap (text : List Char) : Except Failure (Reached Unit text) :=
  match text with
  | [] => .ok (.nothing () [])
  | '/' :: '/' :: text =>
    let line := lineRest text
    (gap line.rest).map fun more => (more.within line.notLonger).within (by simp only [List.length_cons]; omega)
  | '/' :: '*' :: text =>
    match commentRest? text with
    | none => .error ⟨.unterminatedComment, '/' :: '*' :: text⟩
    | some comment =>
      (gap comment.rest).map fun more =>
        (more.within comment.notLonger).within (by simp only [List.length_cons]; omega)
  | c :: text =>
    if isBlank c then (gap text).map (·.behind c) else .ok (.nothing () (c :: text))
termination_by text.length
decreasing_by
  · have := (lineRest text).notLonger; simp only [List.length_cons]; omega
  · have := comment.notLonger; simp only [List.length_cons]; omega
  · exact Nat.lt_succ_self _

/-- A character that stands behind a gap. -/
def expect (c : Char) (text : List Char) : Except Failure (Taken Unit text) := do
  let before ← gap text
  match front? c [] () before.rest with
  | some mark => .ok (before.after mark)
  | none => .error ⟨.missing c before.rest.head?, before.rest⟩

end StateScript.Literal
