/-
The two searches in a call, the one for its closing parenthesis and the one for its separating commas, go
through plain text in step: inside and outside of the same strings, and at the same depth of parentheses up
to the one that closes the call.

They differ in what ends a string, any mark for the first and only its own for the second, and in what an
escape is: a backslash right before a mark, or a backslash that is not escaped itself. Neither difference
shows where only one kind of marks stands, no backslash follows another, and none stands outside of a string.
A call with such a text between its parentheses can then be skipped for what it leaves open only if its square
or its curly brackets are uneven: the first search has seen to its quotes and its parentheses.
-/
import Mathlib.Data.List.Induction
import StateScript.Proofs.Arguments.Balance
import StateScript.Proofs.Extraction.Site

namespace StateScript

open Text Arguments

/-- At most one kind of quote marks stands in the text, no two backslashes side by side, and no backslash
outside of a string. -/
structure IsPlain (text : List Char) : Prop where
  oneMark : ∀ c ∈ text, ∀ d ∈ text, isQuote c = true → isQuote d = true → c = d
  apart : ¬ ['\\', '\\'] <:+: text
  inString : ∀ front, front ++ ['\\'] <+: text → quoteBehind none front ≠ none

theorem IsPlain.front {front text : List Char} (h : IsPlain text) (hfront : front <+: text) : IsPlain front where
  oneMark c hc d hd := h.oneMark c (hfront.subset hc) d (hfront.subset hd)
  apart hin := h.apart (hin.trans hfront.isInfix)
  inString before hbefore := h.inString before (hbefore.trans hfront)

/-! ## One character -/

/-- Both searches are in a string or neither is, both are behind an escaping backslash or neither is, and
such a one stands only in a string. -/
structure InStep (s : CallScan) (n : Nesting) : Prop where
  quoted : s.quoted = n.quote.isSome
  escaped : s.afterBackslash = n.escaped
  inString : n.escaped = true → n.quote ≠ none

/-- A character keeps plain text plain: a mark in a string is its own, and a backslash stands in a string and
behind no other. -/
structure GoesOn (n : Nesting) (c : Char) : Prop where
  mark : ∀ q, n.quote = some q → isQuote c = true → c = q
  backslash : c = '\\' → n.escaped = false ∧ n.quote ≠ none

variable {s : CallScan} {n : Nesting} {c : Char}

theorem CallScan.quoted_step_of_escape (h : s.afterBackslash = true ∨ isQuote c = false) :
    (s.step c).quoted = s.quoted := by
  refine if_neg ?_
  rintro ⟨hmark, hafter⟩
  rcases h with h | h
  · exact hafter h
  · rw [h] at hmark
    cases hmark

theorem CallScan.quoted_step_of_mark (hmark : isQuote c = true) (hafter : s.afterBackslash = false) :
    (s.step c).quoted = !s.quoted :=
  if_pos ⟨hmark, by rw [hafter]; decide⟩

theorem GoesOn.escaped_step (h : GoesOn n c) : (s.step c).afterBackslash = (n.step c).escaped := by
  rw [Nesting.escaped_step]
  show decide (c = '\\') = _
  by_cases hback : c = '\\'
  · rw [(h.backslash hback).1]
    rfl
  · rw [decide_eq_false hback, Bool.and_false]

/-- The same characters begin and end a string for both. -/
theorem InStep.quoted_step (h : InStep s n) (hn : n.IsSound) (hc : GoesOn n c) :
    (s.step c).quoted = (n.step c).quote.isSome := by
  by_cases he : n.escaped = true
  · have hstep : n.step c = { n with escaped := false } := if_pos he
    rw [hstep, CallScan.quoted_step_of_escape (.inl (h.escaped.trans he))]
    exact h.quoted
  · rw [Bool.not_eq_true] at he
    by_cases hback : c = '\\'
    · rw [CallScan.quoted_step_of_escape (.inr (by rw [hback]; rfl)), hback, Nesting.step_backslash he]
      exact h.quoted
    · obtain ⟨-, hquote, -⟩ := Nesting.step_plain he hback
      rw [hquote]
      by_cases hmark : isQuote c = true
      · rw [CallScan.quoted_step_of_mark hmark (h.escaped.trans he), h.quoted]
        rcases hq : n.quote with _ | q
        · rw [toggled, if_pos hmark]
          rfl
        · rw [toggled, if_pos (hc.mark q hq hmark)]
          rfl
      · rw [Bool.not_eq_true] at hmark
        rw [CallScan.quoted_step_of_escape (.inr hmark), h.quoted]
        rcases hq : n.quote with _ | q
        · rw [toggled, if_neg (by rw [hmark]; decide)]
        · have hne : c ≠ q := by
            rintro rfl
            exact absurd (hmark.symm.trans (hn c hq)) (by decide)
          rw [toggled, if_neg hne]

theorem InStep.step (h : InStep s n) (hn : n.IsSound) (hc : GoesOn n c) : InStep (s.step c) (n.step c) := by
  refine ⟨h.quoted_step hn hc, hc.escaped_step, ?_⟩
  intro hescaped
  rw [Nesting.escaped_step, Bool.and_eq_true, decide_eq_true_eq] at hescaped
  obtain ⟨he, hback⟩ := hc.backslash hescaped.2
  rw [hescaped.2, Nesting.step_backslash he]
  exact hback

/-- Both searches are at the same depth of parentheses, and the first one counts that of the call too. -/
structure Level (s : CallScan) (n : Nesting) : Prop where
  pos : 1 ≤ s.depth
  eq : (s.depth : Int) = n.parens + 1

/-- Outside of strings every parenthesis counts, and the one of the call stays open where none closes it. -/
theorem CallScan.depth_step_outside (hquoted : s.quoted = false) (hcloses : s.closes c = false) (hpos : 1 ≤ s.depth) :
    1 ≤ (s.step c).depth ∧ ((s.step c).depth : Int) = s.depth + Bracket.round.weight c := by
  have hdepth : (s.step c).depth = if c = '(' then s.depth + 1 else if c = ')' then s.depth - 1 else s.depth :=
    if_neg (by rw [hquoted]; decide)
  rw [hdepth]
  by_cases hopening : c = '('
  · subst hopening
    exact ⟨Nat.le_add_left 1 s.depth, rfl⟩
  · by_cases hclosing : c = ')'
    · subst hclosing
      have hne : s.depth ≠ 1 := fun hone => by simp [CallScan.closes, hquoted, hone] at hcloses
      have hweight : Bracket.round.weight ')' = -1 := rfl
      rw [if_neg (by decide), if_pos rfl, hweight]
      omega
    · have hweight : Bracket.round.weight c = 0 := Bracket.weight_of_ne hopening hclosing
      rw [if_neg hopening, if_neg hclosing, hweight]
      omega

theorem Level.step (h : Level s n) (hs : InStep s n) (hc : GoesOn n c) (hcloses : s.closes c = false) :
    Level (s.step c) (n.step c) := by
  rcases hq : n.quote with _ | q
  · have he : n.escaped = false := by
      rw [← Bool.not_eq_true]
      exact fun he => hs.inString he hq
    have hback : c ≠ '\\' := fun hback => (hc.backslash hback).2 hq
    have hquoted : s.quoted = false := by rw [hs.quoted, hq]; rfl
    have hparens : (n.step c).parens = n.parens + Bracket.round.weight c :=
      Nesting.count_step_outside he hq hback .round
    obtain ⟨hpos, hdepth⟩ := CallScan.depth_step_outside hquoted hcloses h.pos
    refine ⟨hpos, ?_⟩
    rw [hdepth, hparens, h.eq]
    omega
  · have hdepth : (s.step c).depth = s.depth := if_pos (by rw [hs.quoted, hq]; rfl)
    have hparens : (n.step c).parens = n.parens := Nesting.count_step_inside hq c .round
    refine ⟨hdepth ▸ h.pos, ?_⟩
    rw [hdepth, hparens, h.eq]

/-! ## Whole texts -/

namespace Arguments.Nesting

theorem quote_step_eq_some {q : Char} (h : (n.step c).quote = some q) : n.quote = some q ∨ c = q := by
  unfold Nesting.step at h
  split at h
  · exact .inl h
  · split at h
    · exact .inl h
    · split at h
      · split at h
        · cases h
        · exact .inl h
      · by_cases hmark : isQuote c = true
        · rw [openClose, if_pos hmark] at h
          exact .inr (Option.some.inj h)
        · rw [quote_openClose (Bool.not_eq_true _ ▸ hmark)] at h
          exact .inl h

/-- The mark of an open quote stands in the text. -/
theorem mem_of_quote_past {q : Char} {text : List Char} (h : (n.past text).quote = some q) :
    n.quote = some q ∨ q ∈ text := by
  induction text generalizing n with
  | nil => exact .inl h
  | cons c text ih =>
    rcases ih h with hstep | hmem
    · rcases quote_step_eq_some hstep with hq | rfl
      · exact .inl hq
      · exact .inr List.mem_cons_self
    · exact .inr (List.mem_cons_of_mem _ hmem)

end Arguments.Nesting

theorem IsPlain.goesOn {text : List Char} (h : IsPlain (text ++ [c]))
    (hs : InStep (({} : CallScan).past text) (({} : Nesting).past text)) : GoesOn (({} : Nesting).past text) c where
  mark := by
    intro q hq hmark
    refine h.oneMark c (List.mem_append_right _ List.mem_cons_self) q ?_ hmark (Nesting.isSound_start.past text q hq)
    rcases Nesting.mem_of_quote_past hq with hstart | hmem
    · cases hstart
    · exact List.mem_append_left _ hmem
  backslash := by
    rintro rfl
    constructor
    · rw [← hs.escaped]
      rcases List.eq_nil_or_concat text with rfl | ⟨before, d, rfl⟩
      · rfl
      · rw [List.concat_eq_append, CallScan.afterBackslash_past_concat, decide_eq_false_iff_not]
        rintro rfl
        exact h.apart ⟨before, [], by simp⟩
    · rw [(Nesting.past_start text).1]
      exact h.inString text List.prefix_rfl

/-- Through plain text both searches are in the same strings. -/
theorem IsPlain.inStep {text : List Char} (h : IsPlain text) :
    InStep (({} : CallScan).past text) (({} : Nesting).past text) := by
  induction text using List.reverseRecOn with
  | nil => exact ⟨rfl, rfl, fun he => by cases he⟩
  | append_singleton text c ih =>
    have hs := ih (h.front (List.prefix_append text [c]))
    rw [CallScan.past_append, Nesting.past_append]
    exact hs.step (Nesting.isSound_start.past text) (h.goesOn hs)

/-- Through plain text that stays inside the call both searches are at the same depth. -/
theorem IsPlain.level {text : List Char} (h : IsPlain text) (hstays : ({} : CallScan).Stays text) :
    Level (({} : CallScan).past text) (({} : Nesting).past text) := by
  induction text using List.reverseRecOn with
  | nil => exact ⟨Nat.le_refl 1, rfl⟩
  | append_singleton text c ih =>
    have hfront := h.front (List.prefix_append text [c])
    obtain ⟨hstays, hcloses, -⟩ := CallScan.stays_append_iff.1 hstays
    rw [CallScan.past_append, Nesting.past_append]
    exact (ih hfront hstays).step hfront.inStep (h.goesOn hfront.inStep) hcloses

/-! ## Skipped calls -/

theorem CallSite.result_eq_unbalanced_iff {site : CallSite} {body : List Char} (h : site.closing = .semicolon body) :
    site.result = .error .unbalancedArguments ↔ splitBalanced? body = none := by
  unfold CallSite.result
  simp only [h]
  cases splitBalanced? body <;> simp

/-- The search for the end of a call leaves to the arguments of plain text only square and curly brackets. -/
theorem IsPlain.splitBalanced?_eq_none_iff {body : List Char} (h : IsPlain body) (hstays : ({} : CallScan).Stays body)
    (hcloses : (({} : CallScan).past body).closes ')' = true) : splitBalanced? body = none ↔
      ∃ kind : Bracket, kind ≠ .round ∧
        (outside none body).count kind.opening ≠ (outside none body).count kind.closing := by
  simp only [CallScan.closes, Bool.and_eq_true, Bool.not_eq_true', decide_eq_true_eq] at hcloses
  obtain ⟨⟨-, hquoted⟩, hdepth⟩ := hcloses
  obtain ⟨hquote, hcount⟩ := Nesting.past_start body
  have hclosed : quoteBehind none body = none := by
    rw [← hquote, ← Option.not_isSome_iff_eq_none, ← h.inStep.quoted, hquoted]
    decide
  have hround : (outside none body).count '(' = (outside none body).count ')' := by
    have hparens : (({} : Nesting).past body).parens = 0 := by
      have := (h.level hstays).eq
      omega
    have hexcess : Bracket.round.excess (outside none body) = 0 := (hcount .round).symm.trans hparens
    exact_mod_cast Int.sub_eq_zero.1 hexcess
  rw [← Option.not_isSome_iff_eq_none, isSome_splitBalanced?_iff, and_iff_right hclosed]
  constructor
  · intro hnot
    obtain ⟨kind, hkind⟩ := Classical.not_forall.1 hnot
    refine ⟨kind, ?_, hkind⟩
    rintro rfl
    exact hkind hround
  · rintro ⟨kind, -, hkind⟩ hall
    exact hkind (hall kind)

/-- The two searches go through a plain text in step: after each front of it both are in a string or neither
is, and as long as nothing closes the call the first one is one parenthesis deeper. Thus a call that ends with
a parenthesis and a semicolon behind plain text is skipped for what its arguments leave open just when its
square or its curly brackets are uneven. -/
theorem searches_agree {body : List Char} (h : IsPlain body) :
    (∀ front, front <+: body →
      (({} : CallScan).past front).quoted = (({} : Nesting).past front).quote.isSome ∧
      (({} : CallScan).Stays front →
        ((({} : CallScan).past front).depth : Int) - 1 = (({} : Nesting).past front).parens)) ∧
    ∀ (place : Position) (text : List Char) (site : CallSite), site ∈ callSites place text →
      site.closing = .semicolon body →
      (site.result = .error .unbalancedArguments ↔ ∃ kind : Bracket, kind ≠ .round ∧
        (outside none body).count kind.opening ≠ (outside none body).count kind.closing) := by
  constructor
  · intro front hfront
    have hplain := h.front hfront
    refine ⟨hplain.inStep.quoted, fun hstays => ?_⟩
    rw [(hplain.level hstays).eq]
    omega
  · intro place text site hsite hclosing
    obtain ⟨hstays, hcloses⟩ := stays_of_mem_callSites hsite hclosing
    rw [CallSite.result_eq_unbalanced_iff hclosing, h.splitBalanced?_eq_none_iff hstays hcloses]

/-- An escaped mark and a parenthesis in a string, and a bracket that stays open behind a group. -/
theorem searches_agree_open_bracket :
    let body := "'it\\'s (', f(1), [2".toList
    let site : CallSite := ⟨.set, .start, .semicolon body⟩
    IsPlain body ∧ site ∈ callSites .start "_.set('it\\'s (', f(1), [2);".toList ∧
      (({} : CallScan).past "'it\\'s (', f(".toList).depth - 1 =
        (({} : Nesting).past "'it\\'s (', f(".toList).parens ∧
      site.result = .error .unbalancedArguments := by
  intro body site
  have hbackslash : ∀ i < body.length, body[i]? = some '\\' → quoteBehind none (body.take i) ≠ none := by decide +kernel
  have hmarks : (body.all fun c => !isQuote c || c == '\'') = true := by decide +kernel
  have hmark : ∀ c ∈ body, isQuote c = true → c = '\'' := by
    intro c hc hquote
    simpa [hquote] using List.all_eq_true.1 hmarks c hc
  have hplain : IsPlain body := by
    refine ⟨fun c hc d hd hcmark hdmark => (hmark c hc hcmark).trans (hmark d hd hdmark).symm, by decide +kernel, ?_⟩
    rintro front ⟨rest, hbody⟩
    rw [List.append_assoc] at hbody
    obtain ⟨hi, hc, htake⟩ := getElem?_of_eq_append hbody.symm
    rw [← htake]
    exact hbackslash front.length hi hc
  have hsite : site ∈ callSites .start "_.set('it\\'s (', f(1), [2);".toList := by decide +kernel
  obtain ⟨hagree, hskipped⟩ := searches_agree hplain
  have hfront : "'it\\'s (', f(".toList <+: body := by decide +kernel
  have hstays := (stays_of_mem_callSites hsite rfl).1.front hfront
  have hunbalanced := (hskipped _ _ _ hsite rfl).2 ⟨.square, by decide, by decide +kernel⟩
  exact ⟨hplain, hsite, (hagree _ hfront).2 hstays, hunbalanced⟩

end StateScript
