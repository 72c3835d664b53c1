/-
Integers as they are written: digits, with any number of zeros in front, and a sign before them or
none. A signed integer of 64 bits is read as itself, where no more of a numeral stands behind it.
-/
import StateScript.Proofs.Literal.Gap

namespace StateScript.Literal

open Text

/-- At least one digit, and digits only. -/
structure IsDigits (digits : List Char) : Prop where
  nonempty : digits ≠ []
  digit : ∀ c ∈ digits, c.isDigit = true

/-- The spellings of an integer. -/
inductive SpelledInt : Int → List Char → Prop where
  | unsigned {digits : List Char} (h : IsDigits digits) : SpelledInt (ofDigits digits) digits
  | plus {digits : List Char} (h : IsDigits digits) : SpelledInt (ofDigits digits) ('+' :: digits)
  | minus {digits : List Char} (h : IsDigits digits) : SpelledInt (-(ofDigits digits)) ('-' :: digits)

theorem IsDigits.head {digits : List Char} (h : IsDigits digits) :
    ∃ c more, digits = c :: more ∧ c.isDigit = true := by
  rcases digits with _ | ⟨c, more⟩
  · exact absurd rfl h.nonempty
  · exact ⟨c, more, rfl, h.digit c List.mem_cons_self⟩

theorem isWordPart_of_isDigit {c : Char} (h : c.isDigit = true) : isWordPart c = true := by
  have hnumber : isNumber c = true := by
    rw [isNumber, if_pos (toNat_lt_of_isDigit h), h]
  simp [isWordPart, hnumber]

namespace Numeral

theorem signPart_append {sign : Option Char} (h : sign = none ∨ sign = some '+' ∨ sign = some '-') {c : Char}
    (hc : c.isDigit = true) (text : List Char) :
    ∃ notLonger, signPart (sign.toList ++ c :: text) = ⟨sign, c :: text, notLonger⟩ := by
  rcases h with rfl | rfl | rfl
  · refine ⟨Nat.le_refl _, ?_⟩
    show signPart (c :: text) = _
    rw [signPart]
    · rfl
    · rintro _ ⟨⟩
      cases hc
    · rintro _ ⟨⟩
      cases hc
  · exact ⟨_, rfl⟩
  · exact ⟨_, rfl⟩

theorem fractionPart_of_afterToken {rest : List Char} (h : AfterToken rest) :
    fractionPart rest = .nothing none rest := by
  unfold fractionPart
  split
  · exact absurd rfl (h '.' rfl).2
  · rfl

theorem exponentPart_of_afterToken {rest : List Char} (h : AfterToken rest) :
    exponentPart rest = .nothing none rest := by
  rcases rest with _ | ⟨c, rest⟩
  · rfl
  · have hc : ¬ (c = 'e' ∨ c = 'E') := by
      rintro (rfl | rfl) <;> exact absurd (h _ rfl).1 (by decide)
    rw [exponentPart, if_neg hc]

/-- A sign and digits are taken as a numeral with nothing more. -/
theorem take?_append {sign : Option Char} (hsign : sign = none ∨ sign = some '+' ∨ sign = some '-')
    {digits rest : List Char} (h : IsDigits digits) (hrest : AfterToken rest) :
    ∃ taken, take? (sign.toList ++ (digits ++ rest)) = some taken ∧ taken.value = ⟨sign, digits, none, none⟩ ∧
      taken.rest = rest := by
  have hsignpart : (signPart (sign.toList ++ (digits ++ rest))).value = sign ∧
      (signPart (sign.toList ++ (digits ++ rest))).rest = digits ++ rest := by
    obtain ⟨c, more, rfl, hc⟩ := h.head
    obtain ⟨_, heq⟩ := signPart_append hsign hc (more ++ rest)
    rw [List.cons_append, heq]
    exact ⟨rfl, rfl⟩
  have hstop : ∀ d, rest.head? = some d → d.isDigit = false := by
    intro d hd
    rw [← Bool.not_eq_true]
    intro hdigit
    have := (hrest d hd).1
    rw [isWordPart_of_isDigit hdigit] at this
    cases this
  obtain ⟨_, hwhole⟩ := run_append h.digit hstop
  have hsome : (run Char.isDigit (signPart (sign.toList ++ (digits ++ rest))).rest).value ≠ [] := by
    rw [hsignpart.2, hwhole]
    exact h.nonempty
  refine ⟨_, dif_neg fun hnone => hsome hnone.1, ?_, ?_⟩
  · dsimp only
    rw [hsignpart.1, hsignpart.2, hwhole, fractionPart_of_afterToken hrest, Reached.nothing,
      exponentPart_of_afterToken hrest]
    rfl
  · dsimp only
    rw [hsignpart.2, hwhole, fractionPart_of_afterToken hrest, Reached.nothing, exponentPart_of_afterToken hrest]
    rfl

/-- Digits alone, with their sign, are the integer that they write. -/
theorem int?_digits (sign : Option Char) (digits : List Char) {i : Int} (hi : FitsSigned i)
    (hvalue : (if sign = some '-' then -(ofDigits digits : Int) else ofDigits digits) = i) :
    int? ⟨sign, digits, none, none⟩ = some (.int i hi.fitsWord) := by
  subst hvalue
  have hsize : (if (⟨sign, digits, none, none⟩ : Numeral).isNegative = true then -(ofDigits digits : Int)
      else ofDigits digits) = if sign = some '-' then -(ofDigits digits : Int) else ofDigits digits := by
    simp only [isNegative, decide_eq_true_eq]
  unfold int?
  simp only [hsize, and_self, if_true]
  rw [dif_pos hi]

end Numeral

theorem number_of_digits {sign : Option Char} (hsign : sign = none ∨ sign = some '+' ∨ sign = some '-')
    {digits rest : List Char} (h : IsDigits digits) (hrest : AfterToken rest) {i : Int} (hi : FitsSigned i)
    (hvalue : (if sign = some '-' then -(ofDigits digits : Int) else ofDigits digits) = i) :
    Takes (number (sign.toList ++ (digits ++ rest))) (.int i hi.fitsWord) rest := by
  obtain ⟨taken, htake, hnumeral, htaken⟩ := Numeral.take?_append hsign h hrest
  have hpoint : (⟨sign, digits, none, none⟩ : Numeral).unsigned ≠ ['.'] := by
    intro heq
    rw [Numeral.unsigned, List.append_nil, List.append_nil] at heq
    obtain rfl : digits = ['.'] := heq
    cases h.digit '.' (List.mem_singleton_self _)
  have hnumber : (⟨sign, digits, none, none⟩ : Numeral).number = .ok (.int i hi.fitsWord) := by
    unfold Numeral.number
    rw [Numeral.int?_digits sign digits hi hvalue]
  unfold number
  rw [htake]
  simp only [hnumeral, hpoint, hnumber, if_false]
  exact .of_eq rfl rfl htaken

/-- A spelled integer is read as itself, up to what may follow a token. -/
theorem number_append {i : Int} {text rest : List Char} (h : SpelledInt i text) (hi : FitsSigned i)
    (hrest : AfterToken rest) : Takes (number (text ++ rest)) (.int i hi.fitsWord) rest := by
  cases h with
  | unsigned h => exact @number_of_digits none (.inl rfl) _ _ h hrest _ hi rfl
  | plus h => exact @number_of_digits (some '+') (.inr (.inl rfl)) _ _ h hrest _ hi rfl
  | minus h => exact @number_of_digits (some '-') (.inr (.inr rfl)) _ _ h hrest _ hi rfl

end StateScript.Literal
