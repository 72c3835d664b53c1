/-
JSON text is a literal. A value that is spelled in JSON, with signed integers of 64 bits for its
numerals, is spelled by the same text as a literal; so the reader of literals accepts the texts that
the reader of JSON accepts, and gives the same values with the same order of keys.

A repeated key is repeated in the literal as well: both readers keep its first place and last value.
-/
import StateScript.Proofs.Json.Completeness
import StateScript.Proofs.Json.Numerals
import StateScript.Proofs.Literal.Reading
import Mathlib.Data.List.Forall2

namespace StateScript.Literal

open Text Json.Grammar

/-! ## Tokens -/

theorem isGap_of_blank {blanks : List Char} (h : Blank blanks) : IsGap blanks := by
  induction blanks with
  | nil => exact .nil
  | cons c blanks ih =>
    have hc : isBlank c = true := by
      have hspace := h c List.mem_cons_self
      simp only [Json.Reader.isSpace, Bool.or_eq_true, beq_iff_eq] at hspace
      rcases hspace with ((rfl | rfl) | rfl) | rfl <;> decide
    exact .blank hc (ih fun d hd => h d (List.mem_cons_of_mem c hd))

theorem Escape.of_json {c : Char} {esc : List Char} (h : Json.Grammar.Escape c esc) : Escape [c] esc := by
  cases h with
  | @short d _ h =>
    -- a quote mark, a backslash and a slash write themselves, the others have their names
    have hall : ∀ p ∈ shortEscapes, p ∈ namedEscapes ∨
        p.1 = p.2 ∧ p.1 ∉ ['n', 'r', 't', 'b', 'f', 'v', '0', 'u', 'x', '\n'] := by decide
    rcases hall _ h with h | ⟨hsame, h⟩
    · exact .name h
    · obtain rfl : d = c := hsame
      exact .itself h
  | unit hlen h => exact .unit hlen h
  | pair hhigh hlow hm hn hms hns h => exact .pair hhigh hlow hm hn hms hns h

theorem Body.of_json {chars body : List Char} (h : Json.Grammar.Body chars body) : Body '"' chars body := by
  induction h with
  | nil => exact .nil
  | raw hquote hback _ _ ih => exact .raw hquote hback ih
  | escape he _ ih => exact .escape (.of_json he) ih

theorem SpelledString.of_json {chars body : List Char} (h : Json.Grammar.Body chars body) :
    SpelledString (String.ofList chars) ('"' :: (body ++ ['"'])) :=
  .mk (by decide) (.of_json h)

/-- A signed integer is spelled alike. -/
theorem SpelledInt.of_json {n : Json.Reader.Numeral} {x : Number} {text : List Char} (hsigned : n.IsSigned)
    (h : Spells n text) (hx : n.number? = some x) :
    ∃ (i : Int) (fits : FitsSigned i), x = .int i fits.fitsWord ∧ SpelledInt i text := by
  obtain ⟨negative, whole, fraction, exponent⟩ := n
  obtain ⟨rfl, rfl, hzero, fits⟩ := hsigned
  have hnumber := Json.Reader.Numeral.number?_of_digits rfl rfl hzero fits.fitsWord
  refine ⟨_, fits, Option.some.inj (hx.symm.trans hnumber), ?_⟩
  cases h with
  | mk hwhole _ hpoint hpower =>
    cases hpower
    cases hpoint with
    | digits hnone => exact absurd rfl hnone.1 -- a point has digits behind it
    | absent =>
      have hdigits : IsDigits whole := ⟨hwhole.1, hwhole.2⟩
      rw [List.append_nil, List.append_nil]
      cases negative with
      | false => exact .unsigned hdigits
      | true => exact .minus hdigits

/-! ## Elements -/

/-- What JSON lists is listed as a literal, element by element. -/
theorem exists_listed {α β : Type} {R : α → List Char → Prop} {R' : β → List Char → Prop} {S : α → β → Prop}
    (h : ∀ a text, R a text → ∃ b, R' b text ∧ S a b) {as : List α} {body : List Char}
    (hlisted : Json.Grammar.Listed R as body) : ∃ bs, Listed R' bs body ∧ List.Forall₂ S as bs := by
  cases hlisted with
  | none hblanks => exact ⟨[], .none (isGap_of_blank hblanks), .nil⟩
  | some helements =>
    induction helements with
    | last hbefore ha hbehind =>
      obtain ⟨b, hb, hS⟩ := h _ _ ha
      exact ⟨[b], .last (isGap_of_blank hbefore) hb (isGap_of_blank hbehind), .cons hS .nil⟩
    | comma hbefore ha hbehind _ ih =>
      obtain ⟨b, hb, hS⟩ := h _ _ ha
      obtain ⟨bs, hbs, hmore⟩ := ih
      exact ⟨b :: bs, .comma (isGap_of_blank hbefore) hb (isGap_of_blank hbehind) hbs, .cons hS hmore⟩

/-- The term denotes the value, and at most so many containers nest in it. -/
def Term.Denotes (budget : Nat) (v : Json) (t : Term) : Prop := t.operand = .value v ∧ t.depth ≤ budget

theorem itemValues_of_denotes {budget : Nat} {items : List Json} {terms : List Term}
    (h : List.Forall₂ (Term.Denotes budget) items terms) :
    Term.itemValues terms = items ∧ Term.depthOfItems terms ≤ budget := by
  induction h with
  | nil => exact ⟨rfl, Nat.zero_le _⟩
  | cons ht _ ih =>
    obtain ⟨hvalue, hdepth⟩ := ht
    rw [Term.itemValues, Term.depthOfItems, hvalue, ih.1]
    exact ⟨rfl, Nat.max_le.2 ⟨hdepth, ih.2⟩⟩

theorem memberValues_of_denotes {budget : Nat} {members : List (String × Json)} {terms : List (String × Term)}
    (h : List.Forall₂ (fun m t => t.1 = m.1 ∧ Term.Denotes budget m.2 t.2) members terms) :
    Term.memberValues terms = members ∧ Term.depthOfMembers terms ≤ budget := by
  induction h with
  | nil => exact ⟨rfl, Nat.zero_le _⟩
  | @cons m t _ _ ht _ ih =>
    obtain ⟨key, v⟩ := m
    obtain ⟨key', t⟩ := t
    obtain ⟨rfl, hvalue, hdepth⟩ := ht
    rw [Term.memberValues, Term.depthOfMembers, hvalue, ih.1]
    exact ⟨rfl, Nat.max_le.2 ⟨hdepth, ih.2⟩⟩

/-! ## Values -/

theorem exists_spelled_scalar {v : Json} {text : List Char} (h : Scalar Json.Reader.Numeral.IsSigned v text)
    (budget : Nat) : ∃ t : Term, Spelled t text ∧ t.Denotes budget v := by
  cases h with
  | null => exact ⟨.null, .null, rfl, Nat.zero_le _⟩
  | true => exact ⟨.bool true, .true, rfl, Nat.zero_le _⟩
  | false => exact ⟨.bool false, .false, rfl, Nat.zero_le _⟩
  | number hsigned h hx =>
    obtain ⟨i, fits, rfl, hi⟩ := SpelledInt.of_json hsigned h hx
    exact ⟨.int i fits, .int fits hi, rfl, Nat.zero_le _⟩
  | @string chars _ h => exact ⟨.string (String.ofList chars), .string (.of_json h), rfl, Nat.zero_le _⟩

theorem exists_spelled_member {R : Json → List Char → Prop} {budget : Nat}
    (h : ∀ v text, R v text → ∃ t : Term, Spelled t text ∧ t.Denotes budget v) (m : String × Json) (text : List Char)
    (hm : Member R m text) :
    ∃ t : String × Term, SpelledMember Spelled t text ∧ t.1 = m.1 ∧ t.2.Denotes budget m.2 := by
  cases hm with
  | @mk v chars key before behind text hkey hbefore hbehind hv =>
    obtain ⟨t, ht, hdenotes⟩ := h v text hv
    have hspelled := SpelledMember.mk (.string (.of_json hkey)) (isGap_of_blank hbefore) (isGap_of_blank hbehind) ht
    refine ⟨(String.ofList chars, t), ?_, rfl, hdenotes⟩
    simpa only [List.cons_append, List.append_assoc, List.nil_append] using hspelled

/-- By induction on the containers that may nest, as in the grammar. -/
theorem exists_spelled (budget : Nat) (v : Json) (text : List Char)
    (h : Value Json.Reader.Numeral.IsSigned budget v text) : ∃ t : Term, Spelled t text ∧ t.Denotes budget v := by
  induction budget generalizing v text with
  | zero => exact exists_spelled_scalar h 0
  | succ budget ih =>
    rcases h with h | h
    · exact exists_spelled_scalar h (budget + 1)
    · cases h with
      | array h =>
        obtain ⟨terms, hterms, hdenotes⟩ := exists_listed ih h
        obtain ⟨hvalues, hdepth⟩ := itemValues_of_denotes hdenotes
        refine ⟨.array terms, .array hterms, ?_, Nat.succ_le_succ hdepth⟩
        rw [Term.operand, hvalues]
      | object h =>
        obtain ⟨terms, hterms, hdenotes⟩ := exists_listed (exists_spelled_member ih) h
        obtain ⟨hvalues, hdepth⟩ := memberValues_of_denotes hdenotes
        refine ⟨.object terms, .object hterms, ?_, Nat.succ_le_succ hdepth⟩
        rw [Term.operand, hvalues]

theorem read_of_takes {text rest : List Char} {v : Json} (h : Takes (operand maxDepth text) (.value v) rest)
    (hrest : IsGap rest) : read text = .ok v := by
  obtain ⟨_, hwhole⟩ := h
  obtain ⟨_, hgap⟩ : Reaches (gap rest) () [] := by
    have hgap := @gap_append rest [] hrest fun _ h => by cases h
    rwa [List.append_nil] at hgap
  rw [read, hwhole]
  simp only [bind, Except.bind, hgap, if_true]

/-- A text that holds a value by signed numerals is read as the value. -/
theorem read_of_holds {budget : Nat} (hbudget : budget ≤ maxDepth) {v : Json} {text : List Char}
    (h : Holds Json.Reader.Numeral.IsSigned budget v text) : read text = .ok v := by
  cases h with
  | @mk before text behind hbefore h hbehind =>
    obtain ⟨t, ht, hvalue, hdepth⟩ := exists_spelled budget v text h
    have hafter : AfterToken behind :=
      List.append_nil behind ▸ afterToken_append (isGap_of_blank hbehind) afterToken_nil
    have htaken := readsUpTo maxDepth t text before behind ht (Nat.le_trans hdepth hbudget)
      (isGap_of_blank hbefore) hafter
    rw [hvalue] at htaken
    exact read_of_takes htaken (isGap_of_blank hbehind)

/-- What the reader of JSON accepts, with signed integers of 64 bits for its number literals and no `-0`
among them, the reader of literals accepts as the same value. -/
theorem read_json {text : List Char} {v : Json} (h : Json.read? text = some v)
    (hsigned : ∀ literal ∈ Json.numberLiterals text, Json.SignedLiteral literal) : read text = .ok v := by
  have hholds := (Json.holds_of_read? h).isSigned hsigned
  exact read_of_holds (show Json.maxDepth ≤ maxDepth by decide) hholds

theorem read_json_repeated_key :
    read "\x7b\"a\":7, \"b\": \"/*1.5\" , \"\\u0061\":[-30]\x7d".toList =
      .ok (.object [("a", .array [.number (.int (-30) (by decide))]), ("b", .string "/*1.5")]) := by
  have hliterals : Json.numberLiterals "\x7b\"a\":7, \"b\": \"/*1.5\" , \"\\u0061\":[-30]\x7d".toList =
      [['7'], ['-', '3', '0']] := by decide +kernel
  refine read_json (by decide +kernel) ?_
  rw [hliterals]
  intro literal hliteral
  simp only [List.mem_cons, List.not_mem_nil, or_false] at hliteral
  rcases hliteral with rfl | rfl
  · exact .plain ⟨by decide, List.all_eq_true.1 (by decide)⟩ (by decide)
  · exact @Json.SignedLiteral.minus ['3', '0'] ⟨by decide, List.all_eq_true.1 (by decide)⟩ (by decide) (by decide)

end StateScript.Literal
