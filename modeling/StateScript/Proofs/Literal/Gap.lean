/-
Gaps as they are written: blanks, comments that end with their line, and comments between `/*` and
`*/`, in any number and order. A gap is passed over whole, up to a text that begins with something
else, and what a token may stand before it may also stand before after a gap.
-/
import StateScript.Literal.Reader

namespace StateScript.Literal

open Text

/-! ## Results of readers -/

section

variable {α : Type} {text : List Char} {value : α} {rest : List Char}

/-- A reader's result: it took the value off the front of the text, and left the rest. -/
def Takes (result : Except Failure (Taken α text)) (value : α) (rest : List Char) : Prop :=
  ∃ shorter, result = .ok ⟨value, rest, shorter⟩

/-- A reader's result: it read the value at the front of the text, which may be empty, and left the
rest. -/
def Reaches (result : Except Failure (Reached α text)) (value : α) (rest : List Char) : Prop :=
  ∃ notLonger, result = .ok ⟨value, rest, notLonger⟩

theorem Takes.of_eq {result : Except Failure (Taken α text)} {taken : Taken α text} (h : result = .ok taken)
    (hvalue : taken.value = value) (hrest : taken.rest = rest) : Takes result value rest := by
  subst hvalue hrest
  exact ⟨taken.shorter, h⟩

theorem Reaches.of_eq {result : Except Failure (Reached α text)} {reached : Reached α text}
    (h : result = .ok reached) (hvalue : reached.value = value) (hrest : reached.rest = rest) :
    Reaches result value rest := by
  subst hvalue hrest
  exact ⟨reached.notLonger, h⟩

end

/-! ## Gaps -/

/-- What may stand between the tokens of a literal. -/
inductive IsGap : List Char → Prop where
  | nil : IsGap []
  | blank {c : Char} {g : List Char} (hc : isBlank c = true) (hg : IsGap g) : IsGap (c :: g)
  | line {body g : List Char} (hbody : '\n' ∉ body) (hg : IsGap g) : IsGap ('/' :: '/' :: (body ++ '\n' :: g))
  | block {body g : List Char} (hbody : ¬ ['*', '/'] <:+: body) (hg : IsGap g) :
    IsGap ('/' :: '*' :: (body ++ '*' :: '/' :: g))

/-- No gap goes on into the text. -/
def AfterGap (text : List Char) : Prop := ∀ c, text.head? = some c → isBlank c = false ∧ c ≠ '/'

/-- No word and no number goes on into the text. -/
def AfterToken (text : List Char) : Prop := ∀ c, text.head? = some c → isWordPart c = false ∧ c ≠ '.'

theorem afterGap_cons {c : Char} {text : List Char} (hc : isBlank c = false) (hslash : c ≠ '/') :
    AfterGap (c :: text) := by
  intro d hd
  cases hd
  exact ⟨hc, hslash⟩

theorem afterToken_nil : AfterToken [] := fun _ h => by cases h

theorem afterToken_cons {c : Char} {text : List Char} (hc : isWordPart c = false) (hpoint : c ≠ '.') :
    AfterToken (c :: text) := by
  intro d hd
  cases hd
  exact ⟨hc, hpoint⟩

/-! ## Blanks and words -/

/-- The code points of the blanks from 128 on. -/
def blankRanges : List (Nat × Nat) :=
  [(0x85, 0x85), (0xa0, 0xa0), (0x1680, 0x1680), (0x2000, 0x200a), (0x2028, 0x2029), (0x202f, 0x202f),
   (0x205f, 0x205f), (0x3000, 0x3000)]

/-- No range of the one table meets a range of the other. -/
def apart (xs ys : List (Nat × Nat)) : Bool := xs.all fun x => ys.all fun y => Nat.blt x.2 y.1 || Nat.blt y.2 x.1

theorem not_inRanges_of_apart {xs ys : List (Nat × Nat)} {n : Nat} (h : apart xs ys = true)
    (hn : inRanges xs n = true) : inRanges ys n = false := by
  obtain ⟨x, hx, hnx⟩ := List.any_eq_true.1 hn
  refine List.any_eq_false.2 fun y hy hny => ?_
  have hxy := List.all_eq_true.1 (List.all_eq_true.1 h x hx) y hy
  simp only [Bool.and_eq_true, Bool.or_eq_true, decide_eq_true_eq, Nat.blt_eq] at hnx hny hxy
  omega

theorem inRanges_blankRanges {c : Char} (h : isBlank c = true) (hc : ¬ c.toNat < 128) :
    inRanges blankRanges c.toNat = true := by
  simp only [isBlank, Bool.or_eq_true, Bool.and_eq_true, beq_iff_eq, decide_eq_true_eq] at h
  simp only [blankRanges, inRanges, List.any_cons, List.any_nil, Bool.or_eq_true, Bool.and_eq_true,
    decide_eq_true_eq]
  rcases h with (rfl | h) | h
  · exact absurd (by decide) hc
  · omega
  · omega

/-- No blank is part of a word. -/
theorem isWordPart_of_isBlank {c : Char} (h : isBlank c = true) : isWordPart c = false := by
  have hmarks : c ≠ '_' ∧ c ≠ '$' := ⟨ne_of_isBlank h (by decide), ne_of_isBlank h (by decide)⟩
  have hclass : isLetter c = false ∧ isNumber c = false := by
    unfold isLetter isNumber
    split
    · next hc =>
      exact of_ascii (P := fun c => isBlank c = true → c.isAlpha = false ∧ c.isDigit = false) (by decide) hc h
    · next hc =>
      have hrange := inRanges_blankRanges h hc
      exact ⟨not_inRanges_of_apart (by decide +kernel) hrange, not_inRanges_of_apart (by decide +kernel) hrange⟩
  simp [isWordPart, hclass, hmarks]

/-! ## Reading a gap -/

theorem lineRest_append {body : List Char} (h : '\n' ∉ body) (rest : List Char) :
    ∃ notLonger, lineRest (body ++ '\n' :: rest) = ⟨(), rest, notLonger⟩ := by
  induction body with
  | nil => exact ⟨_, rfl⟩
  | cons c body ih =>
    obtain ⟨hc, hbody⟩ := List.ne_and_not_mem_of_not_mem_cons h
    obtain ⟨notLonger, hline⟩ := ih hbody
    refine ⟨Nat.le_succ_of_le notLonger, ?_⟩
    show lineRest (c :: (body ++ '\n' :: rest)) = _
    rw [lineRest, if_neg (Ne.symm hc), hline]
    rfl

theorem commentRest?_append {body : List Char} (h : ¬ ['*', '/'] <:+: body) (rest : List Char) :
    ∃ notLonger, commentRest? (body ++ '*' :: '/' :: rest) = some ⟨(), rest, notLonger⟩ := by
  induction body with
  | nil => exact ⟨_, rfl⟩
  | cons c body ih =>
    obtain ⟨notLonger, hcomment⟩ := ih fun hin => h (List.infix_cons hin)
    refine ⟨Nat.le_succ_of_le notLonger, ?_⟩
    -- the comment does not end here: its end would stand in the body
    have hgoes : ∀ text, c :: (body ++ '*' :: '/' :: rest) ≠ '*' :: '/' :: text := by
      intro text htext
      rcases body with _ | ⟨d, body⟩
      · cases htext
      · cases htext
        exact h ⟨[], body, rfl⟩
    show commentRest? (c :: (body ++ '*' :: '/' :: rest)) = _
    rw [commentRest?, hcomment]
    · rfl
    · rintro text rfl htext
      exact hgoes text (congrArg _ htext)

/-- A gap is passed over whole. -/
theorem gap_append {g rest : List Char} (h : IsGap g) (hrest : AfterGap rest) : Reaches (gap (g ++ rest)) () rest := by
  induction h with
  | nil =>
    rcases rest with _ | ⟨c, rest⟩
    · show Reaches (gap []) () []
      rw [gap]
      exact .of_eq rfl rfl rfl
    · obtain ⟨hblank, hslash⟩ := hrest c rfl
      show Reaches (gap (c :: rest)) () _
      rw [gap.eq_4 c rest (fun _ hc _ => hslash hc) (fun _ hc _ => hslash hc), hblank]
      exact .of_eq rfl rfl rfl
  | @blank c g hc _ ih =>
    obtain ⟨_, hgap⟩ := ih
    have hslash : c ≠ '/' := ne_of_isBlank hc (by decide)
    show Reaches (gap (c :: (g ++ rest))) () rest
    rw [gap.eq_4 c _ (fun _ hc _ => hslash hc) (fun _ hc _ => hslash hc), if_pos hc, hgap]
    exact .of_eq rfl rfl rfl
  | @line body g hbody _ ih =>
    obtain ⟨_, hgap⟩ := ih
    obtain ⟨_, hline⟩ := lineRest_append hbody (g ++ rest)
    have htext : '/' :: '/' :: (body ++ '\n' :: g) ++ rest = '/' :: '/' :: (body ++ '\n' :: (g ++ rest)) := by
      simp only [List.cons_append, List.append_assoc]
    rw [htext, gap]
    generalize lineRest (body ++ '\n' :: (g ++ rest)) = line at hline ⊢
    subst hline
    rw [hgap]
    exact .of_eq rfl rfl rfl
  | @block body g hbody _ ih =>
    obtain ⟨_, hgap⟩ := ih
    obtain ⟨_, hcomment⟩ := commentRest?_append hbody (g ++ rest)
    have htext : '/' :: '*' :: (body ++ '*' :: '/' :: g) ++ rest =
        '/' :: '*' :: (body ++ '*' :: '/' :: (g ++ rest)) := by
      simp only [List.cons_append, List.append_assoc]
    rw [htext, gap]
    simp only [hcomment, hgap]
    exact .of_eq rfl rfl rfl

/-- A gap between a token and what may follow it may follow it as well. -/
theorem afterToken_append {g rest : List Char} (h : IsGap g) (hrest : AfterToken rest) : AfterToken (g ++ rest) := by
  cases h with
  | nil => exact hrest
  | blank hc _ => exact afterToken_cons (isWordPart_of_isBlank hc) (ne_of_isBlank hc (by decide))
  | line _ _ => exact afterToken_cons (by decide) (by decide)
  | block _ _ => exact afterToken_cons (by decide) (by decide)

/-- A mark is found behind a gap. -/
theorem expect_append {c : Char} {g : List Char} (hg : IsGap g) (hc : isBlank c = false) (hslash : c ≠ '/')
    (rest : List Char) : Takes (expect c (g ++ c :: rest)) () rest := by
  obtain ⟨_, hgap⟩ := @gap_append g (c :: rest) hg (afterGap_cons hc hslash)
  unfold expect
  rw [hgap]
  simp only [bind, Except.bind, front?_cons]
  exact .of_eq rfl rfl rfl

end StateScript.Literal
