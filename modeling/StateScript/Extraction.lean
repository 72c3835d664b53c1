/-
Finding the calls of a script in free text. A call site is a verb's opening, `_.set(`, and the search
goes through the text from the left. From the opening on, `CallScan` looks for the parenthesis that
closes the call: any quote mark not right after a backslash switches between inside and outside of a
string, and parentheses inside a string do not count. A site whose call is closed, is followed by a
semicolon and leaves nothing open among its arguments is a command; every other site is skipped, for
a stated reason. The search goes on behind the semicolon, behind the closing parenthesis where no
semicolon follows, and right behind the opening where nothing closes the call.
-/
import StateScript.Arguments
import StateScript.Command
import StateScript.Text.Position
import StateScript.Text.Taken

namespace StateScript

open Text

/-! ## Where a call closes -/

/-- The state of the search for the closing parenthesis of a call. -/
structure CallScan where
  depth : Nat := 1
  quoted : Bool := false
  afterBackslash : Bool := false
  deriving DecidableEq, Repr

namespace CallScan

/-- The character closes the call. -/
def closes (s : CallScan) (c : Char) : Bool := c = ')' && !s.quoted && s.depth = 1

/-- The state after one character more that does not close the call. -/
def step (s : CallScan) (c : Char) : CallScan where
  depth :=
    if s.quoted then s.depth
    else if c = '(' then s.depth + 1
    else if c = ')' then s.depth - 1
    else s.depth
  quoted := if isQuote c ∧ ¬ s.afterBackslash then !s.quoted else s.quoted
  afterBackslash := c = '\\'

/-- The text up to the closing parenthesis, which is read off with it. -/
def body? (s : CallScan) : (text : List Char) → Option (Taken (List Char) text)
  | [] => none
  | c :: text =>
    if s.closes c then some (.first [] c text)
    else (body? (s.step c) text).map fun body => (body.map (c :: ·)).behind c

/-- The text is what stands before the closing parenthesis, the parenthesis, and the rest. -/
theorem eq_append_of_body? {s : CallScan} {text : List Char} {body : Taken (List Char) text}
    (h : s.body? text = some body) : text = body.value ++ ')' :: body.rest := by
  induction text generalizing s with
  | nil => cases h
  | cons c text ih =>
    rw [body?] at h
    split at h
    · next hc =>
      cases h
      simp only [closes, Bool.and_eq_true, decide_eq_true_eq] at hc
      rw [hc.1.1]
      rfl
    · obtain ⟨inner, hinner, rfl⟩ := Option.map_eq_some_iff.1 h
      exact congrArg (c :: ·) (ih hinner)

end CallScan

/-! ## Where a call begins -/

/-- The verb, if the text begins with its opening, which is read off. -/
def Verb.opens? (verb : Verb) (text : List Char) : Option (Taken Verb text) :=
  front? '_' ('.' :: (verb.word.toList ++ ['('])) verb text

/-- The verb whose opening the text begins with. -/
def callAt? (text : List Char) : Option (Taken Verb text) :=
  match text with
  -- most places are ruled out by their first two characters
  | '_' :: '.' :: rest => Verb.all.findSome? (·.opens? ('_' :: '.' :: rest))
  | _ => none

/-- The opening that was read off stands before the rest. -/
theorem Verb.eq_append_of_opens? {verb : Verb} {text : List Char} {call : Taken Verb text}
    (h : verb.opens? text = some call) : text = call.value.opening ++ call.rest := by
  obtain ⟨htext, hverb⟩ := eq_append_of_front? h
  rw [hverb]
  exact htext

/-- A call begins with the opening of its verb. -/
theorem eq_append_of_callAt? {text : List Char} {call : Taken Verb text} (h : callAt? text = some call) :
    text = call.value.opening ++ call.rest := by
  unfold callAt? at h
  split at h
  · obtain ⟨verb, _, hverb⟩ := List.exists_of_findSome?_eq_some h
    exact verb.eq_append_of_opens? hverb
  · cases h

/-! ## Call sites -/

/-- How a call ends: never, with its parenthesis alone, or with parenthesis and semicolon. -/
inductive Closing where
  | never
  | bare (body : List Char)
  | semicolon (body : List Char)
  deriving DecidableEq, Repr

/-- An opening found by the search, and how its call ends. -/
structure CallSite where
  verb : Verb
  start : Position
  closing : Closing
  deriving DecidableEq, Repr

/-- The semicolon that a text begins with. -/
def semicolon? : (text : List Char) → Option (Taken Unit text)
  | ';' :: rest => some (.first () ';' rest)
  | _ => none

/-- The sites of the calls in a text that begins at `place`. -/
def callSites (place : Position) (text : List Char) : List CallSite :=
  match callAt? text with
  | none =>
    match text with
    | [] => []
    | c :: rest => callSites (place.advance c) rest
  | some call =>
    let inside := place.past call.value.opening
    match CallScan.body? {} call.rest with
    | none => ⟨call.value, place, .never⟩ :: callSites inside call.rest
    | some closed =>
      let behind := (inside.past closed.value).advance ')'
      match semicolon? closed.rest with
      | none => ⟨call.value, place, .bare closed.value⟩ :: callSites behind closed.rest
      | some ended =>
        ⟨call.value, place, .semicolon closed.value⟩ :: callSites (behind.advance ';') ended.rest
termination_by text.length
decreasing_by
  · exact Nat.lt_succ_self _
  · exact call.shorter
  · exact Nat.lt_trans closed.shorter call.shorter
  · exact Nat.lt_trans ended.shorter (Nat.lt_trans closed.shorter call.shorter)

/-! ## Commands and skipped calls -/

/-- Why a call site gives no command. -/
inductive SkipReason where
  | unterminatedCall
  | missingSemicolon
  | unbalancedArguments
  deriving DecidableEq, Repr

/-- The short name of a reason. -/
def SkipReason.code : SkipReason → String
  | unterminatedCall => "unterminated-call"
  | missingSemicolon => "missing-semicolon"
  | unbalancedArguments => "unbalanced-arguments"

/-- A call site that gives no command. -/
structure SkippedCall where
  verb : Verb
  reason : SkipReason
  start : Position
  deriving DecidableEq, Repr

/-- A skipped call in one line. -/
def SkippedCall.display (call : SkippedCall) : String :=
  call.start.display ++ ": skipped _." ++ call.verb.word ++ "(...) (" ++ call.reason.code ++ ")"

/-- What a call site gives. -/
def CallSite.result (site : CallSite) : Except SkipReason Command :=
  match site.closing with
  | .never => .error .unterminatedCall
  | .bare _ => .error .missingSemicolon
  | .semicolon body =>
    match Arguments.splitBalanced? body with
    | some arguments => .ok ⟨site.verb, arguments.map String.ofList⟩
    | none => .error .unbalancedArguments

/-- The command of a call site. -/
def CallSite.command? (site : CallSite) : Option Command :=
  match site.result with
  | .ok command => some command
  | .error _ => none

/-- The skipped call of a call site. -/
def CallSite.skipped? (site : CallSite) : Option SkippedCall :=
  match site.result with
  | .ok _ => none
  | .error reason => some ⟨site.verb, reason, site.start⟩

/-- What a text gives: its commands and its skipped calls, each in the order of the text. -/
structure Extraction where
  commands : List Command
  skipped : List SkippedCall
  deriving DecidableEq, Repr

/-- The commands and the skipped calls of a text. -/
def Extraction.ofText (text : List Char) : Extraction :=
  let sites := callSites Position.start text
  ⟨sites.filterMap (·.command?), sites.filterMap (·.skipped?)⟩

end StateScript
