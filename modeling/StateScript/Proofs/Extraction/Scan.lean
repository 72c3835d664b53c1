/-
The search for the end of a call, over a whole text. A text stays inside a call when none of its
characters closes the call; the text that is read off is the one that stays inside up to a closing
parenthesis.

Blanks and commas only end an escape, so the search does not tell a text apart from its arguments
with one comma and one blank between them: it stays inside the one as it stays inside the other, and
reaches the same depth inside or outside of the same string.
-/
import StateScript.Proofs.Arguments.Pieces
import StateScript.Extraction

namespace StateScript.CallScan

open Text Arguments

/-! ## Texts inside a call -/

/-- The state after a piece of text that does not close the call. -/
def past (s : CallScan) (text : List Char) : CallScan := text.foldl step s

/-- No character of the text closes the call. -/
def Stays : CallScan → List Char → Prop
  | _, [] => True
  | s, c :: text => s.closes c = false ∧ Stays (s.step c) text

theorem past_cons (s : CallScan) (c : Char) (text : List Char) : s.past (c :: text) = (s.step c).past text := rfl

theorem past_append (s : CallScan) (a b : List Char) : s.past (a ++ b) = (s.past a).past b := List.foldl_append ..

theorem afterBackslash_past_concat (s : CallScan) (text : List Char) (c : Char) :
    (s.past (text ++ [c])).afterBackslash = decide (c = '\\') := by
  rw [past_append]
  rfl

theorem stays_append_iff {s : CallScan} {a b : List Char} :
    s.Stays (a ++ b) ↔ s.Stays a ∧ (s.past a).Stays b := by
  induction a generalizing s with
  | nil => exact ⟨fun h => ⟨trivial, h⟩, And.right⟩
  | cons c a ih => rw [List.cons_append, Stays, ih, Stays, and_assoc, past_cons]

theorem Stays.front {s : CallScan} {front text : List Char} (h : s.Stays text) (hfront : front <+: text) :
    s.Stays front := by
  obtain ⟨rest, rfl⟩ := hfront
  exact (stays_append_iff.1 h).1

/-- The text that is read off stays inside, and the parenthesis behind it closes the call. -/
theorem stays_of_body? {s : CallScan} {text : List Char} {body : Taken (List Char) text}
    (h : s.body? text = some body) : s.Stays body.value ∧ (s.past body.value).closes ')' = true := by
  induction text generalizing s with
  | nil => cases h
  | cons c text ih =>
    rw [body?] at h
    split at h
    · next hc =>
      cases h
      refine ⟨trivial, ?_⟩
      have hparen : c = ')' := by
        simp only [closes, Bool.and_eq_true, decide_eq_true_eq] at hc
        exact hc.1.1
      rw [← hparen]
      exact hc
    · next hc =>
      obtain ⟨inner, hinner, rfl⟩ := Option.map_eq_some_iff.1 h
      obtain ⟨hstays, hcloses⟩ := ih hinner
      exact ⟨⟨Bool.not_eq_true _ ▸ hc, hstays⟩, hcloses⟩

/-- A text that stays inside is read off before a parenthesis that closes the call. -/
theorem body?_append {s : CallScan} {body : List Char} (h : s.Stays body) (hcloses : (s.past body).closes ')' = true)
    (rest : List Char) : ∃ hshorter, s.body? (body ++ ')' :: rest) = some ⟨body, rest, hshorter⟩ := by
  induction body generalizing s with
  | nil => exact ⟨_, if_pos hcloses⟩
  | cons c body ih =>
    obtain ⟨hshorter, hbody⟩ := ih h.2 hcloses
    refine ⟨Nat.lt_of_lt_of_le hshorter (Nat.le_succ _), ?_⟩
    show s.body? (c :: (body ++ ')' :: rest)) = _
    rw [body?, if_neg (by rw [h.1]; decide), hbody]
    rfl

/-! ## Blanks and commas -/

/-- The state with no escape at its end. -/
def settled (s : CallScan) : CallScan := { s with afterBackslash := false }

/-- Blanks and commas are neither quotes nor parentheses nor backslashes. -/
theorem step_neutral {c : Char} (hc : isBlank c = true ∨ c = ',') (s : CallScan) :
    s.closes c = false ∧ s.step c = s.settled := by
  have hne : isQuote c = false ∧ c ≠ '(' ∧ c ≠ ')' ∧ c ≠ '\\' := by
    rcases hc with hc | rfl
    · exact ⟨not_isQuote_of_isBlank hc, ne_of_isBlank hc (by decide), ne_of_isBlank hc (by decide),
        ne_of_isBlank hc (by decide)⟩
    · decide
  obtain ⟨hquote, hopen, hclose, hback⟩ := hne
  constructor
  · rw [closes, decide_eq_false hclose]
    rfl
  · unfold step
    simp only [hquote, hopen, hclose, hback, Bool.false_eq_true, false_and, if_false, ite_self, decide_false]
    rfl

theorem past_neutral_cons {c : Char} (hc : isBlank c = true ∨ c = ',') (s : CallScan) (text : List Char) :
    s.past (c :: text) = s.settled.past text := by
  rw [past_cons, (step_neutral hc s).2]

theorem stays_neutral_cons_iff {c : Char} (hc : isBlank c = true ∨ c = ',') {s : CallScan} {text : List Char} :
    s.Stays (c :: text) ↔ s.settled.Stays text := by
  obtain ⟨hcloses, hstep⟩ := step_neutral hc s
  rw [Stays, hstep]
  exact ⟨And.right, fun h => ⟨hcloses, h⟩⟩

theorem settled_past_blanks {blanks : List Char} (h : ∀ c ∈ blanks, isBlank c = true) (s : CallScan) :
    (s.past blanks).settled = s.settled := by
  induction blanks generalizing s with
  | nil => rfl
  | cons c blanks ih =>
    rw [past_neutral_cons (.inl (h c List.mem_cons_self))]
    exact ih (fun d hd => h d (List.mem_cons_of_mem _ hd)) s.settled

theorem past_blanks {blanks : List Char} (h : ∀ c ∈ blanks, isBlank c = true) {s : CallScan} (hs : s.settled = s) :
    s.past blanks = s := by
  induction blanks with
  | nil => rfl
  | cons c blanks ih =>
    rw [past_neutral_cons (.inl (h c List.mem_cons_self)), hs]
    exact ih fun d hd => h d (List.mem_cons_of_mem _ hd)

/-! ## Trimmed arguments -/

/-- The search ends up alike, but for an escape, in two texts: it stays inside the second where it stays
inside the first. -/
def Alike (s : CallScan) (text other : List Char) : Prop :=
  s.Stays text → s.Stays other ∧ (s.past other).settled = (s.past text).settled

/-- What is trimmed off makes no difference. -/
theorem alike_trim {s : CallScan} (hs : s.settled = s) (text : List Char) : s.Alike text (trim text) := by
  intro h
  obtain ⟨before, behind, htext, hbefore, hbehind⟩ := exists_trim text
  rw [htext, List.append_assoc] at h
  have hmiddle := (stays_append_iff.1 (stays_append_iff.1 h).2).1
  rw [past_blanks hbefore hs] at hmiddle
  refine ⟨hmiddle, ?_⟩
  conv => rhs; rw [htext, List.append_assoc, past_append, past_blanks hbefore hs, past_append]
  exact (settled_past_blanks hbehind _).symm

/-- The pieces of a text, trimmed and with a comma and a blank between them, make no difference. -/
theorem alike_trimmed {s : CallScan} (hs : s.settled = s) : ∀ ps : List (List Char),
    s.Alike ([','].intercalate ps) ([',', ' '].intercalate (trimmed ps))
  | [] => fun _ => ⟨trivial, rfl⟩
  | [p] => by
    have hsingle : [',', ' '].intercalate (trimmed [p]) = trim p := by
      rw [trimmed]
      split
      · next hp => rw [hp]; rfl
      · rw [List.intercalate_singleton]
    rw [hsingle, List.intercalate_singleton]
    exact alike_trim hs p
  | p :: q :: ps => by
    intro h
    have htext : [','].intercalate (p :: q :: ps) = p ++ ',' :: [','].intercalate (q :: ps) := by
      rw [List.intercalate_cons_cons, List.append_assoc]
      rfl
    rw [htext, stays_append_iff, stays_neutral_cons_iff (.inr rfl)] at h
    obtain ⟨htrim, hpast⟩ := alike_trim hs p h.1
    -- behind the comma the search goes on from the same state, whether the piece was trimmed or not
    obtain ⟨hstays, hsettled⟩ := @alike_trimmed (s.past p).settled rfl (q :: ps) h.2
    rw [htext, past_append, past_neutral_cons (.inr rfl), ← hsettled, ← hpast]
    rw [← hpast] at hstays
    show s.Stays ([',', ' '].intercalate (trim p :: trimmed (q :: ps))) ∧
      (s.past ([',', ' '].intercalate (trim p :: trimmed (q :: ps)))).settled = _
    rcases htail : trimmed (q :: ps) with _ | ⟨r, rs⟩
    · rw [List.intercalate_singleton]
      exact ⟨htrim, rfl⟩
    · rw [htail] at hstays
      have hprinted : [',', ' '].intercalate (trim p :: r :: rs) =
          trim p ++ ',' :: ' ' :: [',', ' '].intercalate (r :: rs) := by
        rw [List.intercalate_cons_cons, List.append_assoc]
        rfl
      have hblank : isBlank ' ' = true ∨ ' ' = ',' := .inl (by decide)
      rw [hprinted, stays_append_iff, stays_neutral_cons_iff (.inr rfl), stays_neutral_cons_iff hblank, past_append,
        past_neutral_cons (.inr rfl), past_neutral_cons hblank]
      exact ⟨⟨htrim, hstays⟩, rfl⟩

/-- A call whose text stays inside until a parenthesis closes it does so with its arguments, a comma and
a blank between them, in place of the text. -/
theorem stays_intercalate_split {body : List Char} (h : ({} : CallScan).Stays body)
    (hcloses : (({} : CallScan).past body).closes ')' = true) :
    ({} : CallScan).Stays ([',', ' '].intercalate (split body)) ∧
      (({} : CallScan).past ([',', ' '].intercalate (split body))).closes ')' = true := by
  have halike := @alike_trimmed {} rfl (pieces {} body)
  rw [intercalate_pieces] at halike
  obtain ⟨hstays, hsettled⟩ := halike h
  -- an escape has no say in whether the parenthesis closes the call
  have hcongr := congrArg (closes · ')') hsettled
  exact ⟨hstays, hcongr.trans hcloses⟩

end StateScript.CallScan
