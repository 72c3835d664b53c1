/-
Reading undoes spelling. However a term is spelled, with whatever gaps, marks, escapes and signs, the
reader gives what the term denotes, as long as no more containers nest in it than may.

Each reader is shown to take the whole spelling and no more, whatever may stand behind it: a gap, a
comma, a colon, a closing mark or nothing. The induction is on the containers that may still nest.
-/
import StateScript.Proofs.Literal.Term

namespace StateScript.Literal

open Text

/-! ## First characters -/

/-- The text begins as no gap does, and with no closing mark. -/
def Begins (text : List Char) : Prop :=
  ∃ c more, text = c :: more ∧ isBlank c = false ∧ c ∉ ['/', ']', '\x7d']

theorem Begins.afterGap {text : List Char} (h : Begins text) (rest : List Char) : AfterGap (text ++ rest) := by
  obtain ⟨c, more, rfl, hblank, hc⟩ := h
  exact afterGap_cons hblank fun hslash => hc (hslash ▸ List.mem_cons_self)

theorem Begins.head?_ne {text : List Char} (h : Begins text) {close : Char} (hclose : close = ']' ∨ close = '\x7d')
    (rest : List Char) : (text ++ rest).head? ≠ some close := by
  obtain ⟨c, more, rfl, -, hc⟩ := h
  rintro ⟨⟩
  rcases hclose with rfl | rfl <;> exact hc (by decide)

theorem isWordPart_of_isWordStart {c : Char} (h : isWordStart c = true) : isWordPart c = true := by
  simp only [isWordStart, Bool.or_eq_true] at h
  simp only [isWordPart, Bool.or_eq_true]
  rcases h with (h | h) | h
  · exact .inl (.inl (.inl h))
  · exact .inl (.inr h)
  · exact .inr h

/-- A class without blanks and without the marks has only such beginnings. -/
theorem begins_of_class {p : Char → Bool} (hblank : ∀ {c}, isBlank c = true → p c = false)
    (hmarks : p '/' = false ∧ p ']' = false ∧ p '\x7d' = false) {c : Char} (h : p c = true) (more : List Char) :
    Begins (c :: more) := by
  refine ⟨c, more, rfl, ?_, ?_⟩
  · rw [← Bool.not_eq_true]
    intro hc
    rw [hblank hc] at h
    cases h
  · intro hc
    simp only [List.mem_cons, List.not_mem_nil, or_false] at hc
    rcases hc with rfl | rfl | rfl
    · exact absurd (hmarks.1.symm.trans h) (by decide)
    · exact absurd (hmarks.2.1.symm.trans h) (by decide)
    · exact absurd (hmarks.2.2.symm.trans h) (by decide)

theorem begins_of_isWordPart {c : Char} (h : isWordPart c = true) (more : List Char) : Begins (c :: more) :=
  begins_of_class isWordPart_of_isBlank (by decide) h more

theorem begins_of_isQuote {c : Char} (h : isQuote c = true) (more : List Char) : Begins (c :: more) :=
  begins_of_class not_isQuote_of_isBlank (by decide) h more

theorem SpelledString.begins {s : String} {text : List Char} (h : SpelledString s text) : Begins text := by
  cases h with
  | mk hquote _ => exact begins_of_isQuote hquote _

theorem IsDigits.begins {digits : List Char} (h : IsDigits digits) : Begins digits := by
  obtain ⟨c, more, rfl, hc⟩ := h.head
  exact begins_of_isWordPart (isWordPart_of_isDigit hc) more

theorem SpelledKey.begins {key : String} {text : List Char} (h : SpelledKey key text) : Begins text := by
  cases h with
  | string h => exact h.begins
  | word hc _ => exact begins_of_isWordPart (isWordPart_of_isWordStart hc) _
  | number h _ => exact h.begins

theorem SpelledMember.begins {R : Term → List Char → Prop} {m : String × Term} {text : List Char}
    (h : SpelledMember R m text) : Begins text := by
  cases h with
  | mk hkey _ _ _ =>
    obtain ⟨c, more, rfl, hc⟩ := hkey.begins
    exact ⟨c, _, List.cons_append, hc⟩

theorem Spelled.begins {t : Term} {text : List Char} (h : Spelled t text) : Begins text := by
  cases h with
  | undefined => exact ⟨_, _, rfl, by decide⟩
  | null => exact ⟨_, _, rfl, by decide⟩
  | true => exact ⟨_, _, rfl, by decide⟩
  | false => exact ⟨_, _, rfl, by decide⟩
  | int _ h =>
    cases h with
    | unsigned h => exact h.begins
    | plus _ => exact ⟨_, _, rfl, by decide⟩
    | minus _ => exact ⟨_, _, rfl, by decide⟩
  | string h => exact h.begins
  | array _ => exact ⟨_, _, rfl, by decide⟩
  | object _ => exact ⟨_, _, rfl, by decide⟩

/-! ## Keys -/

/-- A digit begins no word and no string. -/
theorem not_isWordStart_of_isDigit {c : Char} (h : c.isDigit = true) : isQuote c = false ∧ isWordStart c = false :=
  of_ascii (P := fun c => c.isDigit = true → isQuote c = false ∧ isWordStart c = false) (by decide)
    (toNat_lt_of_isDigit h) h

theorem not_isQuote_of_isWordStart {c : Char} (h : isWordStart c = true) : isQuote c = false := by
  rw [← Bool.not_eq_true]
  intro hquote
  simp only [isQuote, Bool.or_eq_true, beq_iff_eq] at hquote
  rcases hquote with (rfl | rfl) | rfl <;> cases h

/-- A word goes on up to what may follow a token. -/
theorem word_append {c : Char} {more rest : List Char} (hmore : ∀ d ∈ more, isWordPart d = true)
    (hrest : AfterToken rest) : (word c (more ++ rest)).value = c :: more ∧ (word c (more ++ rest)).rest = rest := by
  obtain ⟨_, hrun⟩ := run_append hmore fun d hd => (hrest d hd).1
  constructor
  · show c :: (run isWordPart (more ++ rest)).value = _
    rw [hrun]
  · show (run isWordPart (more ++ rest)).rest = _
    rw [hrun]

theorem key_append {name : String} {text rest : List Char} (h : SpelledKey name text) (hrest : AfterToken rest) :
    Takes (key (text ++ rest)) name rest := by
  cases h with
  | string h =>
    obtain ⟨quote, more, rfl, hquote, hmore⟩ := h.exists_quoted
    obtain ⟨_, hquoted⟩ := hmore rest
    show Takes (key (quote :: (more ++ rest))) name rest
    rw [key, if_pos hquote, hquoted]
    exact .of_eq rfl String.ofList_toList rfl
  | @word c more hc hmore =>
    obtain ⟨hvalue, hrest'⟩ := @word_append c more rest hmore hrest
    show Takes (key (c :: (more ++ rest))) _ rest
    rw [key, if_neg (by rw [not_isQuote_of_isWordStart hc]; decide), if_pos hc]
    exact .of_eq rfl (congrArg String.ofList hvalue) hrest'
  | number h hfits =>
    obtain ⟨c, more, rfl, hc⟩ := h.head
    obtain ⟨_, hnumber⟩ : Takes (number (c :: (more ++ rest))) _ rest := number_append (.unsigned h) hfits hrest
    obtain ⟨hquote, hstart⟩ := not_isWordStart_of_isDigit hc
    show Takes (key (c :: (more ++ rest))) _ rest
    rw [key, if_neg (by rw [hquote]; decide), if_neg (by rw [hstart]; decide), if_pos (.inl hc), hnumber]
    exact .of_eq rfl (congrArg String.ofList (intDigits_natCast _)) rfl

/-! ## Operands that are no containers -/

/-- A word that names an operand is read as it. -/
theorem scalar_word {c : Char} {more rest : List Char} {v : Operand} (hc : isWordStart c = true)
    (hplain : ¬ (c = '-' ∨ c = '+' ∨ c = '.' ∨ c.isDigit = true)) (hmore : more.all isWordPart = true)
    (hkeyword : keyword? (c :: more) = some v) (hrest : AfterToken rest) :
    Takes (scalar (c :: (more ++ rest))) v rest := by
  obtain ⟨hvalue, hrest'⟩ := @word_append c more rest (List.all_eq_true.1 hmore) hrest
  rw [scalar, if_neg (by rw [not_isQuote_of_isWordStart hc]; decide), if_neg hplain, if_pos hc]
  simp only [hvalue, hkeyword]
  exact .of_eq rfl rfl hrest'

theorem SpelledInt.head {i : Int} {text : List Char} (h : SpelledInt i text) :
    ∃ c more, text = c :: more ∧ (c = '-' ∨ c = '+' ∨ c = '.' ∨ c.isDigit = true) ∧ isQuote c = false := by
  cases h with
  | unsigned h =>
    obtain ⟨c, more, rfl, hc⟩ := h.head
    exact ⟨c, more, rfl, .inr (.inr (.inr hc)), (not_isWordStart_of_isDigit hc).1⟩
  | plus _ => exact ⟨_, _, rfl, by decide, by decide⟩
  | minus _ => exact ⟨_, _, rfl, by decide, by decide⟩

theorem scalar_append {t : Term} {text rest : List Char} (h : Spelled t text) (hdepth : t.depth = 0)
    (hrest : AfterToken rest) : Takes (scalar (text ++ rest)) t.operand rest := by
  cases h with
  | undefined => exact scalar_word (by decide) (by decide) (by decide) rfl hrest
  | null => exact scalar_word (by decide) (by decide) (by decide) rfl hrest
  | true => exact scalar_word (by decide) (by decide) (by decide) rfl hrest
  | false => exact scalar_word (by decide) (by decide) (by decide) rfl hrest
  | int fits h =>
    obtain ⟨c, more, rfl, hc, hquote⟩ := h.head
    obtain ⟨_, hnumber⟩ : Takes (number (c :: (more ++ rest))) _ rest := number_append h fits hrest
    show Takes (scalar (c :: (more ++ rest))) _ rest
    rw [scalar, if_neg (by rw [hquote]; decide), if_pos hc, hnumber]
    exact .of_eq rfl rfl rfl
  | @string s _ h =>
    obtain ⟨quote, more, rfl, hquote, hmore⟩ := h.exists_quoted
    obtain ⟨_, hquoted⟩ := hmore rest
    show Takes (scalar (quote :: (more ++ rest))) (.value (.string s)) rest
    rw [scalar, if_pos hquote, hquoted]
    exact .of_eq rfl (congrArg (Operand.value ∘ Json.string) String.ofList_toList) rfl
  | array _ => cases hdepth
  | object _ => cases hdepth

/-- Only a container begins with an opening mark. -/
theorem head?_ne_of_depth {t : Term} {text : List Char} (h : Spelled t text) (hdepth : t.depth = 0)
    (rest : List Char) : (text ++ rest).head? ≠ some '\x7b' ∧ (text ++ rest).head? ≠ some '[' := by
  have hplain : ∃ c more, text = c :: more ∧ c ≠ '\x7b' ∧ c ≠ '[' := by
    cases h with
    | undefined => exact ⟨_, _, rfl, by decide⟩
    | null => exact ⟨_, _, rfl, by decide⟩
    | true => exact ⟨_, _, rfl, by decide⟩
    | false => exact ⟨_, _, rfl, by decide⟩
    | int _ h =>
      obtain ⟨c, more, rfl, hc, -⟩ := h.head
      refine ⟨c, more, rfl, ?_, ?_⟩
      · rintro rfl
        exact absurd hc (by decide)
      · rintro rfl
        exact absurd hc (by decide)
    | string h =>
      obtain ⟨quote, more, rfl, hquote, -⟩ := h.exists_quoted
      refine ⟨quote, more, rfl, ?_, ?_⟩
      · rintro rfl
        cases hquote
      · rintro rfl
        cases hquote
    | array _ => cases hdepth
    | object _ => cases hdepth
  obtain ⟨c, more, rfl, hbrace, hbracket⟩ := hplain
  exact ⟨fun h => hbrace (Option.some.inj h), fun h => hbracket (Option.some.inj h)⟩

/-! ## Elements -/

/-- Listed elements are read one by one, up to and with the closing mark, where each is read. -/
theorem elements_append {α β : Type} {close : Char} (hclose : close = ']' ∨ close = '\x7d') {ended : Cause}
    {element : (text : List Char) → Except Failure (Taken α text)} {R : β → List Char → Prop} {value : β → α}
    (hbegins : ∀ {b text}, R b text → Begins text) {bs : List β} {body : List Char} (h : Listed R bs body)
    (helement : ∀ b ∈ bs, ∀ text rest, R b text → AfterToken rest → Takes (element (text ++ rest)) (value b) rest)
    (rest : List Char) : Takes (elements close ended element (body ++ close :: rest)) (bs.map value) rest := by
  -- a closing mark may stand right behind an element, and right behind a gap
  have hmark : close ≠ ',' ∧ isBlank close = false ∧ close ≠ '/' ∧ isWordPart close = false ∧ close ≠ '.' := by
    rcases hclose with rfl | rfl <;> decide
  obtain ⟨hcomma, hblank, hslash, hword, hpoint⟩ := hmark
  have hgapclose : AfterGap (close :: rest) := afterGap_cons hblank hslash
  have hcloses : (close :: rest).head? ≠ some ',' := fun h => hcomma (Option.some.inj h)
  induction h with
  | none hg =>
    obtain ⟨_, hgap⟩ := gap_append hg hgapclose
    rw [elements, hgap]
    simp only [bind, Except.bind, front?_cons]
    exact .of_eq rfl rfl rfl
  | @last b before text behind hbefore htext hbehind =>
    have hbody : before ++ (text ++ behind) ++ close :: rest = before ++ (text ++ (behind ++ close :: rest)) := by
      simp only [List.append_assoc]
    obtain ⟨_, hgap⟩ := gap_append hbefore ((hbegins htext).afterGap (behind ++ close :: rest))
    obtain ⟨_, hfirst⟩ := helement b List.mem_cons_self text (behind ++ close :: rest) htext
      (afterToken_append hbehind (afterToken_cons hword hpoint))
    obtain ⟨_, hgapbehind⟩ := gap_append hbehind hgapclose
    rw [hbody, elements, hgap]
    simp only [bind, Except.bind, front?_eq_none ((hbegins htext).head?_ne hclose _), hfirst, hgapbehind,
      front?_eq_none hcloses, front?_cons]
    exact .of_eq rfl rfl rfl
  | @comma b bs before text behind body hbefore htext hbehind _ ih =>
    have hbody : before ++ (text ++ (behind ++ ',' :: body)) ++ close :: rest =
        before ++ (text ++ (behind ++ ',' :: (body ++ close :: rest))) := by
      simp only [List.append_assoc, List.cons_append]
    obtain ⟨_, hgap⟩ := gap_append hbefore ((hbegins htext).afterGap (behind ++ ',' :: (body ++ close :: rest)))
    obtain ⟨_, hfirst⟩ := helement b List.mem_cons_self text (behind ++ ',' :: (body ++ close :: rest)) htext
      (afterToken_append hbehind (afterToken_cons (by decide) (by decide)))
    obtain ⟨_, hgapbehind⟩ := @gap_append behind (',' :: (body ++ close :: rest)) hbehind
      (afterGap_cons (by decide) (by decide))
    obtain ⟨_, hmore⟩ := ih fun c hc => helement c (List.mem_cons_of_mem _ hc)
    rw [hbody, elements, hgap]
    simp only [bind, Except.bind, front?_eq_none ((hbegins htext).head?_ne hclose _), hfirst, hgapbehind,
      front?_cons, hmore]
    exact .of_eq rfl rfl rfl

/-! ## Operands -/

/-- Every spelling in which no more than `budget` containers nest is read as what it denotes. -/
def ReadsUpTo (budget : Nat) : Prop :=
  ∀ (t : Term) (text before rest : List Char), Spelled t text → t.depth ≤ budget → IsGap before → AfterToken rest →
    Takes (operand budget (before ++ (text ++ rest))) t.operand rest

theorem member_append {budget : Nat} (hread : ReadsUpTo budget) {m : String × Term} {text rest : List Char}
    (h : SpelledMember Spelled m text) (hdepth : m.2.depth ≤ budget) (hrest : AfterToken rest) :
    Takes (member (operand budget) (text ++ rest)) (m.1, m.2.operand) rest := by
  cases h with
  | @mk name t spelled before behind text hkey hbefore hbehind htext =>
    have hbody : spelled ++ (before ++ ':' :: (behind ++ text)) ++ rest =
        spelled ++ (before ++ ':' :: (behind ++ (text ++ rest))) := by
      simp only [List.append_assoc, List.cons_append]
    obtain ⟨_, hname⟩ := @key_append name spelled (before ++ ':' :: (behind ++ (text ++ rest))) hkey
      (afterToken_append hbefore (afterToken_cons (by decide) (by decide)))
    obtain ⟨_, hcolon⟩ := @expect_append ':' before hbefore (by decide) (by decide) (behind ++ (text ++ rest))
    obtain ⟨_, hvalue⟩ := hread t text behind rest htext hdepth hbehind hrest
    rw [hbody, member, hname]
    simp only [bind, Except.bind, hcolon, hvalue]
    exact .of_eq rfl rfl rfl

theorem operand_scalar (budget : Nat) {t : Term} {text before rest : List Char} (h : Spelled t text)
    (hdepth : t.depth = 0) (hbefore : IsGap before) (hrest : AfterToken rest) :
    Takes (operand budget (before ++ (text ++ rest))) t.operand rest := by
  obtain ⟨_, hgap⟩ := gap_append hbefore (h.begins.afterGap rest)
  obtain ⟨hbrace, hbracket⟩ := head?_ne_of_depth h hdepth rest
  obtain ⟨_, hscalar⟩ := scalar_append h hdepth hrest
  rw [operand.eq_def, hgap]
  simp only [bind, Except.bind, front?_eq_none hbrace, front?_eq_none hbracket, hscalar]
  exact .of_eq rfl rfl rfl

theorem operand_array {budget : Nat} (hread : ReadsUpTo budget) {items : List Term} {body before rest : List Char}
    (h : Listed Spelled items body) (hdepth : Term.depthOfItems items ≤ budget) (hbefore : IsGap before) :
    Takes (operand (budget + 1) (before ++ '[' :: (body ++ ']' :: rest))) (Term.array items).operand rest := by
  obtain ⟨_, hgap⟩ := @gap_append before ('[' :: (body ++ ']' :: rest)) hbefore
    (afterGap_cons (by decide) (by decide))
  have hitems : Takes (elements ']' .unterminatedArray (operand budget) (body ++ ']' :: rest))
      (items.map Term.operand) rest :=
    elements_append (.inl rfl) Spelled.begins h
      (fun t ht text rest htext =>
        hread t text [] rest htext (Nat.le_trans (Term.depth_le_of_mem_items ht) hdepth) .nil)
      rest
  obtain ⟨_, hitems⟩ := hitems
  have hbrace : ('[' :: (body ++ ']' :: rest)).head? ≠ some '\x7b' := fun h => by cases h
  rw [operand, hgap]
  simp only [bind, Except.bind, front?_eq_none hbrace, front?_cons, hitems]
  exact .of_eq rfl (by rw [Term.operand, Term.itemValues_eq]; rfl) rfl

theorem operand_object {budget : Nat} (hread : ReadsUpTo budget) {members : List (String × Term)}
    {body before rest : List Char} (h : Listed (SpelledMember Spelled) members body)
    (hdepth : Term.depthOfMembers members ≤ budget) (hbefore : IsGap before) :
    Takes (operand (budget + 1) (before ++ '\x7b' :: (body ++ '\x7d' :: rest))) (Term.object members).operand rest := by
  obtain ⟨_, hgap⟩ := @gap_append before ('\x7b' :: (body ++ '\x7d' :: rest)) hbefore
    (afterGap_cons (by decide) (by decide))
  have hentries : Takes (elements '\x7d' .unterminatedObject (member (operand budget)) (body ++ '\x7d' :: rest))
      (members.map fun m => (m.1, m.2.operand)) rest :=
    elements_append (.inr rfl) SpelledMember.begins h
      (fun m hm text rest htext => member_append hread htext (Nat.le_trans (Term.depth_le_of_mem_members hm) hdepth))
      rest
  obtain ⟨_, hentries⟩ := hentries
  rw [operand, hgap]
  simp only [bind, Except.bind, front?_cons, hentries]
  exact .of_eq rfl (by rw [Term.operand, Term.memberValues_eq]; rfl) rfl

/-- By induction on the containers that may nest: inside of one, one less may. -/
theorem readsUpTo : ∀ budget, ReadsUpTo budget
  | 0, t, text, before, rest, h, hdepth, hbefore, hrest =>
    operand_scalar 0 h (Nat.le_zero.1 hdepth) hbefore hrest
  | budget + 1, t, text, before, rest, h, hdepth, hbefore, hrest => by
    have ih := readsUpTo budget
    by_cases hscalar : t.depth = 0
    · exact operand_scalar _ h hscalar hbefore hrest
    · cases h with
      | @array items body h =>
        have htext : '[' :: (body ++ [']']) ++ rest = '[' :: (body ++ ']' :: rest) := by
          simp only [List.cons_append, List.append_assoc, List.nil_append]
        rw [htext]
        exact operand_array ih h (Nat.le_of_succ_le_succ hdepth) hbefore
      | @object members body h =>
        have htext : '\x7b' :: (body ++ ['\x7d']) ++ rest = '\x7b' :: (body ++ '\x7d' :: rest) := by
          simp only [List.cons_append, List.append_assoc, List.nil_append]
        rw [htext]
        exact operand_object ih h (Nat.le_of_succ_le_succ hdepth) hbefore
      | _ => exact absurd rfl hscalar

/-- Every spelling of a term, with gaps around it, is read as the value of the term, if the term has one
and no more containers nest in it than may. -/
theorem read_spelled {t : Term} {v : Json} {before text after : List Char} (h : Spelled t text)
    (hbefore : IsGap before) (hafter : IsGap after) (hdepth : t.depth ≤ maxDepth) (hvalue : t.operand = .value v) :
    read (before ++ text ++ after) = .ok v := by
  -- nothing of what follows can be taken for more of the literal
  have hend : AfterToken after := List.append_nil after ▸ afterToken_append hafter afterToken_nil
  have hgap : Reaches (gap after) () [] := by
    have := @gap_append after [] hafter fun _ h => by cases h
    rwa [List.append_nil] at this
  obtain ⟨_, hgap⟩ := hgap
  obtain ⟨_, hwhole⟩ := readsUpTo maxDepth t text before after h hdepth hbefore hend
  rw [List.append_assoc, read, hwhole]
  simp only [bind, Except.bind, hvalue, hgap, if_true]

theorem read_spelled_items :
    read " [+07, undefined,]//\n".toList = .ok (.array [.number (.int 7 (by decide)), .null]) := by
  have hitem : Spelled (.int 7 (by decide)) ['+', '0', '7'] :=
    .int _ (@SpelledInt.plus ['0', '7'] ⟨by decide, List.all_eq_true.1 (by decide)⟩)
  have hundefined : Listed Spelled [.undefined] [' ', 'u', 'n', 'd', 'e', 'f', 'i', 'n', 'e', 'd', ','] :=
    @Listed.comma _ _ _ _ [' '] _ [] [] (.blank (by decide) .nil) Spelled.undefined .nil (.none .nil)
  have hitems := Listed.comma .nil hitem .nil hundefined
  exact read_spelled (.array hitems) (.blank (show isBlank ' ' = true by decide) .nil)
    (@IsGap.line [] [] (by decide) .nil) (by decide) rfl

end StateScript.Literal
