/-
Typing undoes printing. The compact text of a value with integers for its numbers is typed as the value:
it is neither trimmed nor taken for the word `undefined`, and it is read as JSON, or as a literal where
one container more nests in it than JSON text may nest.
-/
import StateScript.Operand.Coercion
import StateScript.Proofs.Json.Printing
import StateScript.Proofs.Literal.Standard

namespace StateScript

open Text

/-! ## Ends of a spelled value -/

namespace Json.Grammar

variable {P : Reader.Numeral → Prop} {budget : Nat} {v : Json} {text : List Char}

theorem not_isBlank_of_isDigit {c : Char} (h : c.isDigit = true) : isBlank c = false ∧ c ≠ 'u' :=
  of_ascii (P := fun c => c.isDigit = true → isBlank c = false ∧ c ≠ 'u') (by decide) (toNat_lt_of_isDigit h) h

theorem not_isBlank_of_inNumeral {c : Char} (h : inNumeral c = true) : isBlank c = false := by
  simp only [inNumeral, Bool.or_eq_true, beq_iff_eq] at h
  rcases h with ((((h | rfl) | rfl) | rfl) | rfl) | rfl
  · exact (not_isBlank_of_isDigit h).1
  all_goals decide

theorem Scalar.depth_eq_zero (h : Scalar P v text) : v.depth = 0 := by
  cases h <;> rfl

/-- A value begins with no blank, and not as `undefined` does. -/
theorem Value.head? (h : Value P budget v text) : ∀ c, text.head? = some c → isBlank c = false ∧ c ≠ 'u' := by
  have hscalar : Scalar P v text → ∀ c, text.head? = some c → isBlank c = false ∧ c ≠ 'u' := by
    intro h d hd
    obtain ⟨c, more, rfl, hc⟩ := h.head
    cases hd
    rcases hc with hc | hc
    · simp only [List.mem_cons, List.not_mem_nil, or_false] at hc
      rcases hc with rfl | rfl | rfl | rfl | rfl <;> decide
    · exact not_isBlank_of_isDigit hc
  cases budget with
  | zero => exact hscalar h
  | succ budget =>
    rcases h with h | h
    · exact hscalar h
    · intro c hc
      cases h <;> cases hc <;> decide

/-- A value ends with no blank. -/
theorem Value.getLast? (h : Value P budget v text) : ∀ c, text.getLast? = some c → isBlank c = false := by
  have hmark : ∀ (front : List Char) (mark : Char), isBlank mark = false →
      ∀ c, (front ++ [mark]).getLast? = some c → isBlank c = false := by
    intro front mark hmark c hc
    rw [List.getLast?_concat] at hc
    cases hc
    exact hmark
  have hscalar : Scalar P v text → ∀ c, text.getLast? = some c → isBlank c = false := by
    intro h
    cases h with
    | null => exact hmark ['n', 'u', 'l'] 'l' (by decide)
    | true => exact hmark ['t', 'r', 'u'] 'e' (by decide)
    | false => exact hmark ['f', 'a', 'l', 's'] 'e' (by decide)
    | @string _ body _ => exact hmark ('"' :: body) '"' (by decide)
    | number _ h _ =>
      intro c hc
      exact not_isBlank_of_inNumeral (h.inNumeral c (List.mem_of_getLast? hc))
  cases budget with
  | zero => exact hscalar h
  | succ budget =>
    rcases h with h | h
    · exact hscalar h
    · cases h with
      | @array _ body _ => exact hmark ('[' :: body) ']' (by decide)
      | @object _ body _ => exact hmark ('\x7b' :: body) '\x7d' (by decide)

end Json.Grammar

namespace Operand

open Json.Grammar

theorem isBracketed_of_container {R : Json → List Char → Prop} {v : Json} {text : List Char} (h : Container R v text) :
    isBracketed text = true := by
  cases h with
  | @array _ body _ =>
    have hlast : ('[' :: (body ++ [']'])).getLast? = some ']' := @List.getLast?_concat _ ('[' :: body) ']'
    simp only [isBracketed, isBetween, List.head?_cons, hlast, and_self, decide_true, Bool.or_true]
  | @object _ body _ =>
    have hlast : ('\x7b' :: (body ++ ['\x7d'])).getLast? = some '\x7d' :=
      @List.getLast?_concat _ ('\x7b' :: body) '\x7d'
    simp only [isBracketed, isBetween, List.head?_cons, hlast, and_self, decide_true, Bool.true_or]

/-- The text of a value goes to the readers as it is. -/
theorem ofText_of_value {P : Json.Reader.Numeral → Prop} {budget : Nat} {v : Json} {text : List Char}
    (h : Value P budget v text)
    (hread : Json.read? text = some v ∨ Json.read? text = none ∧ literal? text = some v) : ofText text = .value v := by
  have htrim : trim text = text := trim_eq_self (fun c hc => (h.head? c hc).1) h.getLast?
  have hword : text ≠ ['u', 'n', 'd', 'e', 'f', 'i', 'n', 'e', 'd'] := by
    rintro rfl
    exact (h.head? 'u' rfl).2 rfl
  rw [ofText, htrim, ofTrimmed, if_neg hword]
  rcases hread with hread | ⟨hnone, hliteral⟩
  · rw [hread]
  · rw [hnone, hliteral]

/-- A value with integers alone and no repeated key, printed and typed, is itself: where no more than 127
containers nest in it, and also where 128 nest and its integers are all signed ones. -/
theorem ofText_compact {v : Json} (hv : v.regular Number.isInteger = true)
    (hdepth : v.depth ≤ 127 ∨ v.depth = 128 ∧ v.regular Number.isSigned = true) : ofText v.compact = .value v := by
  rcases hdepth with hdepth | ⟨hdepth, hsigned⟩
  · have hvalue := Json.compact_spells Json.integer_printsAs hv hdepth
    exact ofText_of_value hvalue (.inl (Json.read?_of_holds hvalue.holds))
  · have hvalue := Json.compact_spells Json.signed_printsAs hsigned (Nat.le_of_eq hdepth)
    refine ofText_of_value hvalue ?_
    cases hread : Json.read? v.compact with
    | some w => exact .inl (congrArg some ((Json.holds_of_read? hread).unique hvalue.holds))
    | none =>
      -- too deep for JSON text: the value is a container, so its text is tried as a literal
      have hbracketed : isBracketed v.compact = true := by
        rcases hvalue with hscalar | hcontainer
        · rw [hscalar.depth_eq_zero] at hdepth
          cases hdepth
        · exact isBracketed_of_container hcontainer
      refine .inr ⟨rfl, ?_⟩
      rw [literal?, if_pos hbracketed, Literal.read_of_holds (Nat.le_refl 128) hvalue.holds]
      rfl

theorem ofText_compact_deepest :
    ofText (Nat.repeat (Json.array [·]) 128 (.number (.int (-7) (by decide)))).compact =
      .value (Nat.repeat (Json.array [·]) 128 (.number (.int (-7) (by decide)))) :=
  ofText_compact (by decide +kernel) (.inr ⟨by decide +kernel, by decide +kernel⟩)

end Operand

end StateScript
