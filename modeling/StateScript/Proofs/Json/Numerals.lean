/-
The number literals of a text, found without reading it: outside of the strings, each longest run of
characters of a numeral that begins with a minus sign or a digit. In a text that holds a value they are
the spellings of the numerals in it, so that what is asked of the literals is true of the numerals.
-/
import StateScript.Proofs.Json.Grammar

namespace StateScript.Json

open Text Grammar

/-! ## Literals -/

/-- The text behind the end of a string, from a place in the string on. -/
def afterString : (escaped : Bool) → List Char → List Char
  | _, [] => []
  | true, _ :: rest => afterString false rest
  | false, c :: rest => if c = '"' then rest else afterString (c == '\\') rest

theorem length_afterString_le (escaped : Bool) (text : List Char) :
    (afterString escaped text).length ≤ text.length := by
  induction text generalizing escaped with
  | nil => cases escaped <;> exact Nat.le_refl _
  | cons c rest ih =>
    cases escaped with
    | true => exact Nat.le_succ_of_le (ih false)
    | false =>
      rw [afterString]
      split
      · exact Nat.le_succ _
      · exact Nat.le_succ_of_le (ih _)

/-- The number literals of a text, in order. -/
def numberLiterals : List Char → List (List Char)
  | [] => []
  | c :: rest =>
    if c = '"' then numberLiterals (afterString false rest)
    else if c = '-' ∨ c.isDigit = true then (c :: rest.takeWhile inNumeral) :: numberLiterals (rest.dropWhile inNumeral)
    else numberLiterals rest
termination_by text => text.length
decreasing_by
  · exact Nat.lt_succ_of_le (length_afterString_le false rest)
  · exact Nat.lt_succ_of_le (List.dropWhile_sublist inNumeral).length_le
  · exact Nat.lt_succ_self _

/-- The literals of the signed integers of 64 bits: digits, perhaps behind a minus sign, and not `-0`. -/
inductive SignedLiteral : List Char → Prop
  | plain {digits : List Char} (h : IsRun Char.isDigit digits) (fits : FitsSigned (ofDigits digits)) :
    SignedLiteral digits
  | minus {digits : List Char} (h : IsRun Char.isDigit digits) (fits : FitsSigned (-(ofDigits digits)))
    (hzero : ofDigits digits ≠ 0) : SignedLiteral ('-' :: digits)

/-- Every number literal of the text is a signed integer of 64 bits. -/
def SignedText (text : List Char) : Prop := ∀ literal ∈ numberLiterals text, SignedLiteral literal

/-! ## Places without a literal -/

/-- A character that begins neither a string nor a number literal. -/
def isPlain (c : Char) : Bool := c != '"' && c != '-' && !c.isDigit

theorem numberLiterals_cons {c : Char} (h : isPlain c = true) (text : List Char) :
    numberLiterals (c :: text) = numberLiterals text := by
  simp only [isPlain, Bool.and_eq_true, bne_iff_ne, Bool.not_eq_true'] at h
  obtain ⟨⟨hquote, hminus⟩, hdigit⟩ := h
  have hplain : ¬ (c = '-' ∨ c.isDigit = true) := by
    rintro (hc | hc)
    · exact hminus hc
    · rw [hdigit] at hc
      cases hc
  rw [numberLiterals, if_neg hquote, if_neg hplain]

theorem numberLiterals_append {front : List Char} (h : ∀ c ∈ front, isPlain c = true) (text : List Char) :
    numberLiterals (front ++ text) = numberLiterals text := by
  induction front with
  | nil => rfl
  | cons c front ih =>
    rw [List.cons_append, numberLiterals_cons (h c List.mem_cons_self)]
    exact ih fun d hd => h d (List.mem_cons_of_mem c hd)

theorem numberLiterals_blank {blanks : List Char} (h : Blank blanks) (text : List Char) :
    numberLiterals (blanks ++ text) = numberLiterals text := by
  refine numberLiterals_append ?_ text
  intro c hc
  have hspace := h c hc
  simp only [Reader.isSpace, Bool.or_eq_true, beq_iff_eq] at hspace
  rcases hspace with ((rfl | rfl) | rfl) | rfl <;> decide

/-! ## Strings -/

theorem afterString_append {front : List Char} (h : ∀ c ∈ front, c ≠ '"' ∧ c ≠ '\\') (text : List Char) :
    afterString false (front ++ text) = afterString false text := by
  induction front with
  | nil => rfl
  | cons c front ih =>
    obtain ⟨hquote, hback⟩ := h c List.mem_cons_self
    rw [List.cons_append, afterString, if_neg hquote, beq_eq_false_iff_ne.2 hback]
    exact ih fun d hd => h d (List.mem_cons_of_mem c hd)

theorem afterString_hex {digits : List Char} {n : Nat} (h : ofHex? digits = some n) (text : List Char) :
    afterString false (digits ++ text) = afterString false text := by
  refine afterString_append ?_ text
  intro c hc
  have hdigit := hexValue?_of_mem h c hc
  constructor
  · rintro rfl
    cases hdigit
  · rintro rfl
    cases hdigit

theorem Grammar.Escape.afterString {c : Char} {esc : List Char} (h : Escape c esc) (text : List Char) :
    Json.afterString true (esc ++ text) = Json.afterString false text := by
  cases h with
  | short _ => rfl
  | unit _ h => exact afterString_hex h text
  | @pair _ high low _ _ _ _ hm hn _ _ _ =>
    have htext : 'u' :: (high ++ '\\' :: 'u' :: low) ++ text = 'u' :: (high ++ '\\' :: 'u' :: (low ++ text)) := by
      simp only [List.cons_append, List.append_assoc]
    rw [htext, Json.afterString, afterString_hex hm]
    exact afterString_hex hn text

theorem Grammar.Body.afterString {chars body : List Char} (h : Body chars body) (text : List Char) :
    Json.afterString false (body ++ '"' :: text) = text := by
  induction h with
  | nil => rfl
  | @raw c _ _ hquote hback _ _ ih =>
    rw [List.cons_append, Json.afterString, if_neg hquote, beq_eq_false_iff_ne.2 hback]
    exact ih
  | @escape _ esc _ body he _ ih =>
    rw [List.cons_append, List.append_assoc, Json.afterString, if_neg (by decide)]
    exact (he.afterString _).trans ih

/-- There is no number literal in a string. -/
theorem numberLiterals_string {chars body : List Char} (h : Body chars body) (text : List Char) :
    numberLiterals ('"' :: (body ++ '"' :: text)) = numberLiterals text := by
  rw [numberLiterals, if_pos rfl, h.afterString]

/-! ## Numerals -/

theorem inNumeral_of_isDigit {c : Char} (h : c.isDigit = true) : inNumeral c = true := by
  simp only [inNumeral, h, Bool.true_or]

theorem Grammar.Point.inNumeral {digits point : List Char} (h : Point digits point) :
    ∀ c ∈ point, Grammar.inNumeral c = true := by
  cases h with
  | absent => exact fun _ hc => by cases hc
  | digits h =>
    rintro c (_ | ⟨_, hc⟩)
    · decide
    · exact inNumeral_of_isDigit (h.2 c hc)

theorem Grammar.Power.inNumeral {exponent : Option Int} {power : List Char} (h : Power exponent power) :
    ∀ c ∈ power, Grammar.inNumeral c = true := by
  have hmark : ∀ letter, letter = 'e' ∨ letter = 'E' → Grammar.inNumeral letter = true := by
    rintro _ (rfl | rfl) <;> decide
  cases h with
  | absent => exact fun _ hc => by cases hc
  | plain hletter h =>
    rintro c (_ | ⟨_, hc⟩)
    · exact hmark _ hletter
    · exact inNumeral_of_isDigit (h.2 c hc)
  | plus hletter h | minus hletter h =>
    rintro c (_ | ⟨_, _ | ⟨_, hc⟩⟩)
    · exact hmark _ hletter
    · decide
    · exact inNumeral_of_isDigit (h.2 c hc)

theorem Grammar.Spells.inNumeral {n : Reader.Numeral} {literal : List Char} (h : Spells n literal) :
    ∀ c ∈ literal, Grammar.inNumeral c = true := by
  cases h with
  | mk hwhole _ hpoint hpower =>
    intro c hc
    simp only [List.mem_append] at hc
    rcases hc with hc | hc | hc | hc
    · unfold Reader.Numeral.sign at hc
      split at hc
      · rw [List.mem_singleton.1 hc]
        decide
      · cases hc
    · exact inNumeral_of_isDigit (hwhole.2 c hc)
    · exact hpoint.inNumeral c hc
    · exact hpower.inNumeral c hc

/-- The spelling of a numeral is a literal, where the numeral does not go on. -/
theorem numberLiterals_numeral {n : Reader.Numeral} {literal text : List Char} (h : Spells n literal)
    (htext : AfterNumeral text) : numberLiterals (literal ++ text) = literal :: numberLiterals text := by
  obtain ⟨c, more, rfl, hc⟩ := h.head
  have hquote : c ≠ '"' := by
    rintro rfl
    exact absurd hc (by decide)
  have hmore : ∀ d ∈ more, inNumeral d = true := fun d hd => h.inNumeral d (List.mem_cons_of_mem c hd)
  obtain ⟨_, hrun⟩ := run_append hmore htext
  have htake : (more ++ text).takeWhile inNumeral = more := congrArg (fun r => r.value) hrun
  have hdrop : (more ++ text).dropWhile inNumeral = text := congrArg (fun r => r.rest) hrun
  rw [List.cons_append, numberLiterals, if_neg hquote, if_pos hc, htake, hdrop]

theorem Grammar.Point.eq_nil {digits point : List Char} (h : Point digits point)
    (hpoint : ∀ c ∈ point, c.isDigit = true) : digits = [] ∧ point = [] := by
  cases h with
  | absent => exact ⟨rfl, rfl⟩
  | digits _ => exact absurd (hpoint '.' List.mem_cons_self) (by decide)

theorem Grammar.Power.eq_none {exponent : Option Int} {power : List Char} (h : Power exponent power)
    (hpower : ∀ c ∈ power, c.isDigit = true) : exponent = none ∧ power = [] := by
  rcases h.letter with h | ⟨_, letter, _, -, rfl, hletter⟩
  · exact h
  · have hdigit := hpower letter List.mem_cons_self
    rcases hletter with rfl | rfl <;> cases hdigit

/-- Digits alone have neither a fraction nor a power of ten. -/
theorem eq_whole_of_isRun {whole fraction point power : List Char} {exponent : Option Int}
    (hpoint : Point fraction point) (hpower : Power exponent power)
    (h : IsRun Char.isDigit (whole ++ (point ++ power))) :
    fraction = [] ∧ exponent = none ∧ whole ++ (point ++ power) = whole := by
  obtain ⟨hfraction, rfl⟩ := hpoint.eq_nil fun c hc =>
    h.2 c (List.mem_append_right whole (List.mem_append_left power hc))
  obtain ⟨hexponent, rfl⟩ := hpower.eq_none fun c hc =>
    h.2 c (List.mem_append_right whole (List.mem_append_right [] hc))
  exact ⟨hfraction, hexponent, List.append_nil whole⟩

/-- A literal of a signed integer spells no other numeral. -/
theorem Grammar.Spells.isSigned {n : Reader.Numeral} {literal : List Char} (h : Spells n literal)
    (hsigned : SignedLiteral literal) : n.IsSigned := by
  obtain ⟨negative, whole, fraction, exponent⟩ := n
  cases h with
  | @mk point power hwhole _ hpoint hpower =>
    cases negative with
    | false =>
      have hdigits : SignedLiteral (whole ++ (point ++ power)) := hsigned
      generalize htext : whole ++ (point ++ power) = text at hdigits
      cases hdigits with
      | plain hrun fits =>
        obtain ⟨hfraction, hexponent, hsame⟩ := eq_whole_of_isRun hpoint hpower (htext ▸ hrun)
        obtain rfl := htext.symm.trans hsame
        exact ⟨hfraction, hexponent, (fun h => by cases h.1), fits⟩
      | minus _ _ _ =>
        -- without a sign the text begins with a digit
        obtain ⟨c, more, rfl⟩ := List.exists_cons_of_ne_nil hwhole.1
        cases htext
        exact absurd (hwhole.2 '-' List.mem_cons_self) (by decide)
    | true =>
      have hdigits : SignedLiteral ('-' :: (whole ++ (point ++ power))) := hsigned
      cases hdigits with
      | plain hrun _ => exact absurd (hrun.2 '-' List.mem_cons_self) (by decide)
      | minus hrun fits hzero =>
        obtain ⟨hfraction, hexponent, hsame⟩ := eq_whole_of_isRun hpoint hpower hrun
        rw [hsame] at fits hzero
        exact ⟨hfraction, hexponent, fun h => hzero h.2, fits⟩

/-! ## Values -/

/-- Where `R` spells a value and every number literal of the text is signed, `S` spells the value. -/
def Narrows {α : Type} (R S : α → List Char → Prop) : Prop :=
  ∀ {a : α} {text rest : List Char}, R a text → AfterNumeral rest → SignedText (text ++ rest) →
    S a text ∧ SignedText rest

theorem SignedText.of_eq {text rest : List Char} (h : SignedText text)
    (heq : numberLiterals text = numberLiterals rest) : SignedText rest :=
  fun literal hliteral => h literal (heq ▸ hliteral)

theorem SignedText.of_blank {blanks text : List Char} (h : SignedText (blanks ++ text)) (hblanks : Blank blanks) :
    SignedText text :=
  h.of_eq (numberLiterals_blank hblanks text)

theorem SignedText.of_cons {c : Char} {text : List Char} (h : SignedText (c :: text)) (hc : isPlain c = true) :
    SignedText text :=
  h.of_eq (numberLiterals_cons hc text)

theorem SignedText.of_word {word text : List Char} (h : SignedText (word ++ text)) (hword : word.all isPlain = true) :
    SignedText text :=
  h.of_eq (numberLiterals_append (List.all_eq_true.1 hword) text)

theorem scalar_narrows (P : Reader.Numeral → Prop) : Narrows (Scalar P) (Scalar Reader.Numeral.IsSigned) := by
  intro v text rest h hrest hsigned
  cases h with
  | null => exact ⟨.null, hsigned.of_word (by decide)⟩
  | true => exact ⟨.true, hsigned.of_word (by decide)⟩
  | false => exact ⟨.false, hsigned.of_word (by decide)⟩
  | @string chars body h =>
    rw [between_append] at hsigned
    exact ⟨.string h, hsigned.of_eq (numberLiterals_string h rest)⟩
  | number _ h hn =>
    -- the spelling is the first of the literals: it is signed, and so are those behind it
    have hliterals := numberLiterals_numeral h hrest
    refine ⟨.number (h.isSigned (hsigned _ ?_)) h hn, fun literal hliteral => hsigned literal ?_⟩
    · rw [hliterals]
      exact List.mem_cons_self
    · rw [hliterals]
      exact List.mem_cons_of_mem _ hliteral

section

variable {α : Type} {R S : α → List Char → Prop} {close : Char}

theorem elements_narrow (hclose : close = ']' ∨ close = '\x7d') (hnarrow : Narrows R S) {as : List α} {body : List Char}
    (h : Elements R as body) {rest : List Char} (hsigned : SignedText (body ++ close :: rest)) :
    Elements S as body ∧ SignedText rest := by
  have hmark : inNumeral close = false ∧ isPlain close = true := by
    rcases hclose with rfl | rfl <;> decide
  induction h with
  | @last a before text behind hbefore h hbehind =>
    have htext : before ++ (text ++ behind) ++ close :: rest = before ++ (text ++ (behind ++ close :: rest)) := by
      simp only [List.append_assoc]
    rw [htext] at hsigned
    obtain ⟨hfirst, hmore⟩ := hnarrow h (afterNumeral_append hbehind (afterNumeral_cons hmark.1 rest))
      (hsigned.of_blank hbefore)
    exact ⟨.last hbefore hfirst hbehind, (hmore.of_blank hbehind).of_cons hmark.2⟩
  | @comma a as before text behind body hbefore h hbehind _ ih =>
    have htext : before ++ (text ++ (behind ++ ',' :: body)) ++ close :: rest =
        before ++ (text ++ (behind ++ ',' :: (body ++ close :: rest))) := by
      simp only [List.append_assoc, List.cons_append]
    rw [htext] at hsigned
    obtain ⟨hfirst, hmore⟩ := hnarrow h (afterNumeral_append hbehind (@afterNumeral_cons ',' (by decide) _))
      (hsigned.of_blank hbefore)
    obtain ⟨hothers, hrest⟩ := ih ((hmore.of_blank hbehind).of_cons (by decide))
    exact ⟨.comma hbefore hfirst hbehind hothers, hrest⟩

theorem listed_narrow (hclose : close = ']' ∨ close = '\x7d') (hnarrow : Narrows R S) {as : List α} {body : List Char}
    (h : Listed R as body) {rest : List Char} (hsigned : SignedText (body ++ close :: rest)) :
    Listed S as body ∧ SignedText rest := by
  cases h with
  | none h =>
    have hmark : isPlain close = true := by
      rcases hclose with rfl | rfl <;> decide
    exact ⟨.none h, (hsigned.of_blank h).of_cons hmark⟩
  | some h =>
    obtain ⟨helements, hrest⟩ := elements_narrow hclose hnarrow h hsigned
    exact ⟨.some helements, hrest⟩

end

section

variable {R S : Json → List Char → Prop}

theorem member_narrows (hnarrow : Narrows R S) : Narrows (Member R) (Member S) := by
  intro m text rest h hrest hsigned
  cases h with
  | @mk v chars key before behind text hkey hbefore hbehind h =>
    have htext : '"' :: (key ++ '"' :: (before ++ ':' :: (behind ++ text))) ++ rest =
        '"' :: (key ++ '"' :: (before ++ ':' :: (behind ++ (text ++ rest)))) := by
      simp only [List.append_assoc, List.cons_append]
    rw [htext] at hsigned
    have hcolon := (hsigned.of_eq (numberLiterals_string hkey _)).of_blank hbefore
    obtain ⟨hvalue, hmore⟩ := hnarrow h hrest ((hcolon.of_cons (by decide)).of_blank hbehind)
    exact ⟨.mk hkey hbefore hbehind hvalue, hmore⟩

theorem container_narrows (hnarrow : Narrows R S) : Narrows (Container R) (Container S) := by
  intro v text rest h hrest hsigned
  cases h with
  | @array items body h =>
    rw [between_append] at hsigned
    obtain ⟨hitems, hmore⟩ := listed_narrow (.inl rfl) hnarrow h (hsigned.of_cons (by decide))
    exact ⟨.array hitems, hmore⟩
  | @object members body h =>
    rw [between_append] at hsigned
    obtain ⟨hmembers, hmore⟩ := listed_narrow (.inr rfl) (member_narrows hnarrow) h (hsigned.of_cons (by decide))
    exact ⟨.object hmembers, hmore⟩

end

theorem value_narrows (P : Reader.Numeral → Prop) (budget : Nat) :
    Narrows (Value P budget) (Value Reader.Numeral.IsSigned budget) := by
  induction budget with
  | zero => exact scalar_narrows P
  | succ budget ih =>
    intro v text rest h hrest hsigned
    rcases h with h | h
    · obtain ⟨hscalar, hmore⟩ := scalar_narrows P h hrest hsigned
      exact ⟨.inl hscalar, hmore⟩
    · obtain ⟨hcontainer, hmore⟩ := container_narrows ih h hrest hsigned
      exact ⟨.inr hcontainer, hmore⟩

/-- A text whose number literals are all signed integers holds its value by such numerals. -/
theorem Grammar.Holds.isSigned {P : Reader.Numeral → Prop} {budget : Nat} {v : Json} {text : List Char}
    (h : Holds P budget v text) (hsigned : SignedText text) : Holds Reader.Numeral.IsSigned budget v text := by
  cases h with
  | @mk before text behind hbefore h hbehind =>
    obtain ⟨hvalue, -⟩ := value_narrows P budget h (afterNumeral_of_blank hbehind) (hsigned.of_blank hbefore)
    exact .mk hbefore hvalue hbehind

end StateScript.Json
