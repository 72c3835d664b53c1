/-
The search for calls as a relation: what each of its steps does with the front of a text. It passes over
a character where no opening begins; behind an opening it goes on right there if nothing closes the
call, behind the closing parenthesis if no semicolon follows, and behind the semicolon otherwise. The
relation holds of a text and just the sites that the search finds in it, so what a step keeps, or adds
to the sites, is told of the search by induction on its steps.
-/
import StateScript.Proofs.Extraction.Site

namespace StateScript

open Text

/-! ## Where a call closes -/

/-- The text stands between the parentheses of a call: it stays inside, and the parenthesis behind it
closes the call. -/
def CallScan.IsBody (text : List Char) : Prop :=
  ({} : CallScan).Stays text ∧ (({} : CallScan).past text).closes ')' = true

theorem CallScan.body?_eq_none_iff {s : CallScan} {text : List Char} : s.body? text = none ↔ s.Stays text := by
  induction text generalizing s with
  | nil => exact ⟨fun _ => trivial, fun _ => rfl⟩
  | cons c text ih =>
    rw [body?, Stays]
    split
    · next hc => simp [hc]
    · next hc => simp [hc, ih]

theorem semicolon?_eq_none_iff {text : List Char} : semicolon? text = none ↔ text.head? ≠ some ';' := by
  unfold semicolon?
  split
  · simp
  · next hne =>
    refine ⟨?_, fun _ => rfl⟩
    rintro - hhead
    obtain ⟨rest, rfl⟩ := List.head?_eq_some_iff.1 hhead
    exact hne rest rfl

theorem eq_cons_of_semicolon? {text : List Char} {ended : Taken Unit text} (h : semicolon? text = some ended) :
    text = ';' :: ended.rest := by
  unfold semicolon? at h
  split at h
  · cases h
    rfl
  · cases h

/-! ## Where a call begins -/

/-- What lacks a character and begins a text with this character begins the text before it. -/
theorem isPrefix_append_cons_iff {front text rest : List Char} {c : Char} (hc : c ∉ front) :
    front <+: text ++ c :: rest ↔ front <+: text := by
  constructor
  · intro h
    have htext : text ++ [c] <+: text ++ c :: rest := ⟨rest, by simp⟩
    rcases List.prefix_or_prefix_of_prefix h htext with h | h
    · rcases List.prefix_concat_iff.1 h with rfl | h
      · simp at hc
      · exact h
    · exact absurd (h.subset (by simp)) hc
  · intro h
    exact h.trans (List.prefix_append _ _)

theorem callAt?_eq_none_iff {text : List Char} : callAt? text = none ↔ ∀ verb : Verb, ¬ verb.opening <+: text := by
  constructor
  · rintro h verb ⟨rest, rfl⟩
    obtain ⟨_, hcall⟩ := callAt?_opening verb rest
    rw [h] at hcall
    cases hcall
  · intro h
    rw [Option.eq_none_iff_forall_ne_some]
    intro call hcall
    exact h call.value ⟨call.rest, (eq_append_of_callAt? hcall).symm⟩

/-- At most one verb's opening begins a text. -/
theorem Verb.eq_of_opening_isPrefix {verb other : Verb} {text : List Char} (h : verb.opening <+: text)
    (hother : other.opening <+: text) : verb = other := by
  obtain ⟨rest, rfl⟩ := h
  obtain ⟨more, hmore⟩ := hother
  obtain ⟨_, hcall⟩ := callAt?_opening verb rest
  have hvalue : (callAt? (verb.opening ++ rest)).map (·.value) = some other := by
    rw [← hmore]
    obtain ⟨_, hcall'⟩ := callAt?_opening other more
    rw [hcall']
    rfl
  rw [hcall] at hvalue
  exact Option.some.inj hvalue

/-! ## Steps -/

/-- The search in a text that begins at a place finds the sites, step by step. -/
inductive Finds : Position → List Char → List CallSite → Prop
  | done {place : Position} : Finds place [] []
  | pass {place : Position} {c : Char} {rest : List Char} {sites : List CallSite}
    (hopening : ∀ verb : Verb, ¬ verb.opening <+: c :: rest) (h : Finds (place.advance c) rest sites) :
    Finds place (c :: rest) sites
  | never {place : Position} {verb : Verb} {rest : List Char} {sites : List CallSite}
    (hstays : ({} : CallScan).Stays rest) (h : Finds (place.past verb.opening) rest sites) :
    Finds place (verb.opening ++ rest) (⟨verb, place, .never⟩ :: sites)
  | bare {place : Position} {verb : Verb} {body rest : List Char} {sites : List CallSite}
    (hbody : CallScan.IsBody body) (hrest : rest.head? ≠ some ';')
    (h : Finds (place.past (verb.opening ++ (body ++ [')']))) rest sites) :
    Finds place (verb.opening ++ (body ++ ')' :: rest)) (⟨verb, place, .bare body⟩ :: sites)
  | semicolon {place : Position} {verb : Verb} {body rest : List Char} {sites : List CallSite}
    (hbody : CallScan.IsBody body) (h : Finds (place.past (verb.opening ++ (body ++ [')', ';']))) rest sites) :
    Finds place (verb.opening ++ (body ++ ')' :: ';' :: rest)) (⟨verb, place, .semicolon body⟩ :: sites)

theorem finds_callSites (place : Position) (text : List Char) : Finds place text (callSites place text) := by
  fun_induction callSites place text with
  | case1 => exact .done
  | case2 place c rest hcall ih => exact .pass (callAt?_eq_none_iff.1 hcall) ih
  | case3 place text call hcall inside hclosed ih =>
    have htext := eq_append_of_callAt? hcall
    obtain ⟨verb, rest, _⟩ := call
    dsimp only at htext
    subst htext
    exact .never (CallScan.body?_eq_none_iff.1 hclosed) ih
  | case4 place text call hcall inside closed hclosed behind hended ih =>
    have htext := eq_append_of_callAt? hcall
    have hrest := CallScan.eq_append_of_body? hclosed
    have hbody := CallScan.stays_of_body? hclosed
    obtain ⟨verb, rest, _⟩ := call
    obtain ⟨body, after, _⟩ := closed
    dsimp only at htext hrest
    subst htext hrest
    refine .bare hbody (semicolon?_eq_none_iff.1 hended) ?_
    rw [Position.past_append, Position.past_append]
    exact ih
  | case5 place text call hcall inside closed hclosed behind ended hended ih =>
    have htext := eq_append_of_callAt? hcall
    have hrest := CallScan.eq_append_of_body? hclosed
    have hbody := CallScan.stays_of_body? hclosed
    have hafter := eq_cons_of_semicolon? hended
    obtain ⟨verb, rest, _⟩ := call
    obtain ⟨body, after, _⟩ := closed
    obtain ⟨_, last, _⟩ := ended
    dsimp only at htext hrest hafter
    subst htext hrest hafter
    refine .semicolon hbody ?_
    rw [Position.past_append, Position.past_append]
    exact ih

theorem callSites_of_finds {place : Position} {text : List Char} {sites : List CallSite}
    (h : Finds place text sites) : callSites place text = sites := by
  induction h with
  | done => exact callSites_nil _
  | pass hopening _ ih =>
    rw [callSites.eq_def, callAt?_eq_none_iff.2 hopening]
    exact ih
  | @never place verb rest sites hstays _ ih =>
    obtain ⟨_, hcall⟩ := callAt?_opening verb rest
    rw [callSites.eq_def, hcall]
    simp only [CallScan.body?_eq_none_iff.2 hstays, ih]
  | @bare place verb body rest sites hbody hrest _ ih =>
    obtain ⟨_, hcall⟩ := callAt?_opening verb (body ++ ')' :: rest)
    obtain ⟨_, hclosed⟩ := CallScan.body?_append hbody.1 hbody.2 rest
    rw [callSites.eq_def, hcall]
    simp only [hclosed, semicolon?_eq_none_iff.2 hrest]
    rw [Position.past_append, Position.past_append] at ih
    exact congrArg _ ih
  | @semicolon place verb body rest sites hbody _ ih => rw [callSites_call verb hbody.1 hbody.2, ih]

/-- The search ends in every text, with one list of sites. -/
theorem finds_iff {place : Position} {text : List Char} {sites : List CallSite} :
    Finds place text sites ↔ sites = callSites place text := by
  constructor
  · intro h
    exact (callSites_of_finds h).symm
  · rintro rfl
    exact finds_callSites place text

end StateScript
