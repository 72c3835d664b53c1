/-
Call sites in a text that is put together from parts. Prose is a text in which no opening stands; the
search passes over it to whatever begins behind it, for an opening has its underscore at its front
only and so cannot begin in the prose and end behind it. A call whose text stays inside and is closed
by a parenthesis and a semicolon is one site, and the search goes on behind it.
-/
import StateScript.Proofs.Extraction.Scan

namespace StateScript

open Text

/-! ## Openings and prose -/

theorem callAt?_opening (verb : Verb) (text : List Char) :
    ∃ hshorter, callAt? (verb.opening ++ text) = some ⟨verb, text, hshorter⟩ := by
  cases verb <;> exact ⟨_, rfl⟩

theorem Verb.not_mem_tail_opening (verb : Verb) : '_' ∉ verb.opening.tail := by cases verb <;> decide

/-- The text contains no opening of a call. -/
def IsProse (text : List Char) : Prop := ∀ verb : Verb, ¬ verb.opening <:+: text

theorem IsProse.tail {c : Char} {text : List Char} (h : IsProse (c :: text)) : IsProse text :=
  fun verb hin => h verb (List.infix_cons hin)

/-- No call begins in prose that ends before an underscore or with the text. -/
theorem callAt?_prose {c : Char} {prose rest : List Char} (h : IsProse (c :: prose))
    (hrest : ∀ d, rest.head? = some d → d = '_') : callAt? (c :: (prose ++ rest)) = none := by
  cases hcall : callAt? (c :: (prose ++ rest)) with
  | none => rfl
  | some call =>
    exfalso
    have htext : c :: prose ++ rest = call.value.opening ++ call.rest := eq_append_of_callAt? hcall
    rcases List.append_eq_append_iff.1 htext with ⟨more, hopening, hrest'⟩ | ⟨more, hprose, -⟩
    · -- the opening ends behind the prose, so that its end begins with an underscore
      rcases more with _ | ⟨d, more⟩
      · rw [List.append_nil] at hopening
        exact h call.value (hopening ▸ List.infix_rfl)
      · obtain rfl := hrest d (by rw [hrest']; rfl)
        refine call.value.not_mem_tail_opening ?_
        rw [hopening]
        exact List.mem_append_right _ List.mem_cons_self
    · exact h call.value (hprose ▸ (List.prefix_append _ _).isInfix)

/-! ## The search over the parts -/

theorem callSites_nil (place : Position) : callSites place [] = [] := by
  rw [callSites]
  rfl

/-- The search passes over prose. -/
theorem callSites_prose {prose rest : List Char} (h : IsProse prose) (hrest : ∀ d, rest.head? = some d → d = '_')
    (place : Position) : callSites place (prose ++ rest) = callSites (place.past prose) rest := by
  induction prose generalizing place with
  | nil => rfl
  | cons c prose ih =>
    rw [callSites.eq_def]
    split
    · exact ih h.tail (place.advance c)
    · next call hcall =>
      cases hcall.symm.trans (callAt?_prose h hrest)

/-- A call that is closed by a parenthesis and a semicolon is one site. -/
theorem callSites_call (verb : Verb) {body : List Char} (h : ({} : CallScan).Stays body)
    (hcloses : (({} : CallScan).past body).closes ')' = true) (rest : List Char) (place : Position) :
    callSites place (verb.opening ++ (body ++ ')' :: ';' :: rest)) = ⟨verb, place, .semicolon body⟩ ::
      callSites (place.past (verb.opening ++ (body ++ [')', ';']))) rest := by
  obtain ⟨_, hcall⟩ := callAt?_opening verb (body ++ ')' :: ';' :: rest)
  obtain ⟨_, hclosed⟩ := CallScan.body?_append h hcloses (';' :: rest)
  rw [callSites.eq_def, hcall]
  simp only [hclosed, semicolon?, Position.past_append]
  rfl

/-- The text of a site with a semicolon stays inside its call, which is closed behind it. -/
theorem stays_of_mem_callSites {place : Position} {text body : List Char} {site : CallSite}
    (h : site ∈ callSites place text) (hbody : site.closing = .semicolon body) :
    ({} : CallScan).Stays body ∧ (({} : CallScan).past body).closes ')' = true := by
  fun_induction callSites place text with
  | case1 => cases h
  | case2 _ _ _ _ ih => exact ih h
  | case3 _ _ _ _ _ _ ih =>
    rcases List.mem_cons.1 h with rfl | h
    · cases hbody
    · exact ih h
  | case4 _ _ _ _ _ _ _ _ _ ih =>
    rcases List.mem_cons.1 h with rfl | h
    · cases hbody
    · exact ih h
  | case5 _ _ _ _ _ _ hclosed _ _ _ ih =>
    rcases List.mem_cons.1 h with rfl | h
    · cases hbody
      exact CallScan.stays_of_body? hclosed
    · exact ih h

/-- A command that was found has its arguments from a text that stays inside its call. -/
theorem exists_body_of_mem_commands {text : List Char} {command : Command}
    (h : command ∈ (Extraction.ofText text).commands) :
    ∃ body arguments, ({} : CallScan).Stays body ∧ (({} : CallScan).past body).closes ')' = true ∧
      Arguments.splitBalanced? body = some arguments ∧ command.arguments = arguments.map String.ofList := by
  obtain ⟨⟨verb, start, closing⟩, hsite, hcommand⟩ := List.mem_filterMap.1 h
  rcases closing with _ | body | body
  · cases hcommand
  · cases hcommand
  · obtain ⟨hstays, hcloses⟩ := stays_of_mem_callSites hsite rfl
    unfold CallSite.command? CallSite.result at hcommand
    cases hsplit : Arguments.splitBalanced? body with
    | none =>
      simp only [hsplit] at hcommand
      cases hcommand
    | some arguments =>
      simp only [hsplit, Option.some.injEq] at hcommand
      exact ⟨body, arguments, hstays, hcloses, hsplit, hcommand ▸ rfl⟩

end StateScript
