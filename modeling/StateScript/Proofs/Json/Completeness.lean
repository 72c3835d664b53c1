/-
Every JSON text of the grammar is read, and read as the value that it holds: with the soundness of the
reader, the texts read are exactly those of the grammar with no more containers nested than may be.

Each part of the reader takes a whole spelling and no more, whatever may stand behind it. Only of a
numeral that is to be asked: nothing behind it may go on with it.
-/
import StateScript.Proofs.Json.Soundness

namespace StateScript.Json.Reader

open Text Grammar

/-- The reader took the value off the front of the text, and left the rest. -/
def Gives {α : Type} {text : List Char} (result : Option (Taken α text)) (value : α) (rest : List Char) : Prop :=
  ∃ shorter, result = some ⟨value, rest, shorter⟩

theorem Gives.of_eq {α : Type} {text rest : List Char} {value : α} {result : Option (Taken α text)}
    {taken : Taken α text} (h : result = some taken) (hvalue : taken.value = value) (hrest : taken.rest = rest) :
    Gives result value rest := by
  subst hvalue hrest
  exact ⟨taken.shorter, h⟩

/-! ## Marks -/

theorem run_isSpace_append {blanks : List Char} (h : Blank blanks) {c : Char} (hc : isSpace c = false)
    (rest : List Char) : ∃ notLonger, run isSpace (blanks ++ c :: rest) = ⟨blanks, c :: rest, notLonger⟩ :=
  run_append h fun d hd => by cases hd; exact hc

theorem mark?_append {blanks : List Char} (h : Blank blanks) {c : Char} (hc : isSpace c = false) (rest : List Char) :
    Gives (mark? c (blanks ++ c :: rest)) () rest := by
  obtain ⟨_, hrun⟩ := run_isSpace_append h hc rest
  unfold mark?
  rw [hrun]
  dsimp only
  rw [front?_cons]
  exact .of_eq rfl rfl rfl

theorem mark?_eq_none {blanks : List Char} (h : Blank blanks) {c d : Char} (hd : isSpace d = false) (hne : d ≠ c)
    (rest : List Char) : mark? c (blanks ++ d :: rest) = none := by
  obtain ⟨_, hrun⟩ := run_isSpace_append h hd rest
  have hhead : (d :: rest).head? ≠ some c := fun heq => hne (Option.some.inj heq)
  unfold mark?
  rw [hrun]
  dsimp only
  rw [front?_eq_none hhead]
  rfl

/-! ## Strings -/

theorem unit?_append {digits : List Char} {n : Nat} (hlen : digits.length = 4) (h : ofHex? digits = some n)
    (rest : List Char) : Gives (unit? (digits ++ rest)) n rest := by
  match digits, hlen with
  | [a, b, c, d], _ =>
    show Gives (unit? (a :: b :: c :: d :: rest)) n rest
    rw [unit?, h]
    exact .of_eq rfl rfl rfl

theorem named?_of_mem {c d : Char} (h : (c, d) ∈ shortEscapes) : c ≠ 'u' ∧ named? c = some d := by
  have hall : ∀ p ∈ shortEscapes, p.1 ≠ 'u' ∧ named? p.1 = some p.2 := by decide
  exact hall _ h

theorem escaped?_append {c : Char} {esc : List Char} (h : Escape c esc) (rest : List Char) :
    Gives (escaped? (esc ++ rest)) c rest := by
  cases h with
  | @short d _ h =>
    obtain ⟨hu, hnamed⟩ := named?_of_mem h
    show Gives (escaped? (d :: rest)) c rest
    rw [escaped?, if_neg hu, hnamed]
    exact .of_eq rfl rfl rfl
  | @unit _ digits hlen h =>
    obtain ⟨_, hunit⟩ := unit?_append hlen h rest
    show Gives (escaped? ('u' :: (digits ++ rest))) c rest
    rw [escaped?, if_pos rfl, byNumber?, hunit]
    simp only [Option.bind_some, not_isHighSurrogate_toNat, scalar?_toNat]
    exact .of_eq rfl rfl rfl
  | @pair _ high low m n hhigh hlow hm hn hms hns h =>
    obtain ⟨_, hfirst⟩ := unit?_append hhigh hm ('\\' :: 'u' :: (low ++ rest))
    obtain ⟨_, hsecond⟩ := unit?_append hlow hn rest
    obtain ⟨_, hmark⟩ := front?_append '\\' ['u'] () (low ++ rest)
    have hmark' : front? '\\' ['u'] () ('\\' :: 'u' :: (low ++ rest)) = _ := hmark
    have htext : 'u' :: (high ++ '\\' :: 'u' :: low) ++ rest = 'u' :: (high ++ '\\' :: 'u' :: (low ++ rest)) := by
      simp only [List.cons_append, List.append_assoc]
    rw [htext, escaped?, if_pos rfl, byNumber?, hfirst]
    simp only [Option.bind_some, hms, if_true, hmark', hsecond, hns, h, scalar?_toNat]
    exact .of_eq rfl rfl rfl

/-- A string is read as its characters, up to and with its closing quote. -/
theorem stringBody?_append {chars body : List Char} (h : Body chars body) (rest : List Char) :
    Gives (stringBody? (body ++ '"' :: rest)) chars rest := by
  induction h with
  | nil =>
    show Gives (stringBody? ('"' :: rest)) [] rest
    rw [stringBody?, if_pos rfl]
    exact .of_eq rfl rfl rfl
  | @raw c chars body hquote hback hcontrol _ ih =>
    obtain ⟨_, ih⟩ := ih
    show Gives (stringBody? (c :: (body ++ '"' :: rest))) (c :: chars) rest
    rw [stringBody?, if_neg hquote, if_neg hback, if_neg hcontrol, ih]
    exact .of_eq rfl rfl rfl
  | @escape c esc chars body he _ ih =>
    obtain ⟨_, ih⟩ := ih
    obtain ⟨_, hfront⟩ := escaped?_append he (body ++ '"' :: rest)
    have htext : '\\' :: (esc ++ body) ++ '"' :: rest = '\\' :: (esc ++ (body ++ '"' :: rest)) := by
      simp only [List.cons_append, List.append_assoc]
    rw [htext, stringBody?, if_neg (by decide), if_pos rfl, hfront]
    simp only [Option.bind_some, ih]
    exact .of_eq rfl rfl rfl

/-! ## Numerals -/

theorem minus_append (n : Numeral) (hwhole : IsRun Char.isDigit n.whole) (text : List Char) :
    (minus (n.sign ++ (n.whole ++ text))).value = n.negative ∧
      (minus (n.sign ++ (n.whole ++ text))).rest = n.whole ++ text := by
  obtain ⟨negative, whole, fraction, exponent⟩ := n
  cases negative with
  | true => exact ⟨rfl, rfl⟩
  | false =>
    obtain ⟨c, more, rfl⟩ := List.exists_cons_of_ne_nil hwhole.1
    have hnone : minus (c :: (more ++ text)) = .nothing false (c :: (more ++ text)) := by
      rw [minus]
      rintro _ ⟨⟩
      exact absurd (hwhole.2 '-' List.mem_cons_self) (by decide)
    show (minus (c :: (more ++ text))).value = false ∧ (minus (c :: (more ++ text))).rest = c :: (more ++ text)
    rw [hnone]
    exact ⟨rfl, rfl⟩

theorem fraction?_append {digits point text : List Char} (h : Point digits point)
    (htext : ∀ c, text.head? = some c → c.isDigit = false ∧ c ≠ '.') :
    ∃ notLonger, fraction? (point ++ text) = some ⟨digits, text, notLonger⟩ := by
  cases h with
  | absent =>
    refine ⟨Nat.le_refl _, ?_⟩
    show fraction? text = _
    unfold fraction?
    split
    · exact absurd rfl (htext '.' rfl).2
    · rfl
  | digits h =>
    obtain ⟨_, hrun⟩ := run?_append h fun c hc => (htext c hc).1
    refine ⟨?_, ?_⟩
    · simp only [List.length_append, List.length_cons]
      omega
    · show fraction? ('.' :: (digits ++ text)) = _
      rw [fraction?, hrun]
      rfl

theorem exponentDigits?_append {letter : Char} {power : List Char} {e : Int} (h : Power (some e) (letter :: power))
    {rest : List Char} (hrest : AfterNumeral rest) : Gives (exponentDigits? (power ++ rest)) e rest := by
  have hdigit : ∀ c, rest.head? = some c → c.isDigit = false := fun c hc => (of_inNumeral (hrest c hc)).1
  cases h with
  | plain _ h =>
    obtain ⟨_, hrun⟩ := run?_append h hdigit
    obtain ⟨c, more, rfl⟩ := List.exists_cons_of_ne_nil h.1
    have hc : c.isDigit = true := h.2 c List.mem_cons_self
    show Gives (exponentDigits? (c :: (more ++ rest))) _ rest
    have hrun' : run? Char.isDigit (c :: (more ++ rest)) = _ := hrun
    rw [exponentDigits?, hrun']
    · exact .of_eq rfl rfl rfl
    · rintro _ ⟨⟩
      cases hc
    · rintro _ ⟨⟩
      cases hc
  | @plus _ ds _ h =>
    obtain ⟨_, hrun⟩ := run?_append h hdigit
    show Gives (exponentDigits? ('+' :: (ds ++ rest))) _ rest
    rw [exponentDigits?, hrun]
    exact .of_eq rfl rfl rfl
  | @minus _ ds _ h =>
    obtain ⟨_, hrun⟩ := run?_append h hdigit
    show Gives (exponentDigits? ('-' :: (ds ++ rest))) _ rest
    rw [exponentDigits?, hrun]
    exact .of_eq rfl rfl rfl

theorem exponent?_append {exponent : Option Int} {power : List Char} (h : Power exponent power) {rest : List Char}
    (hrest : AfterNumeral rest) : ∃ notLonger, exponent? (power ++ rest) = some ⟨exponent, rest, notLonger⟩ := by
  rcases h.letter with ⟨rfl, rfl⟩ | ⟨e, letter, digits, rfl, rfl, hletter⟩
  · refine ⟨Nat.le_refl _, ?_⟩
    rcases rest with _ | ⟨c, rest⟩
    · rfl
    · have hc : ¬ (c = 'e' ∨ c = 'E') := by
        obtain ⟨-, -, he, hE⟩ := of_inNumeral (hrest c rfl)
        exact fun h => h.elim he hE
      show exponent? (c :: rest) = _
      rw [exponent?, if_neg hc]
      rfl
  · obtain ⟨hlen, hdigits⟩ := exponentDigits?_append h hrest
    refine ⟨Nat.le_succ_of_le (Nat.le_of_lt hlen), ?_⟩
    show exponent? (letter :: (digits ++ rest)) = _
    rw [exponent?, if_pos hletter, hdigits]
    rfl

theorem numeral?_append {n : Numeral} {text : List Char} (h : Spells n text) {rest : List Char}
    (hrest : AfterNumeral rest) : Gives (numeral? (text ++ rest)) n rest := by
  cases h with
  | @mk point power hwhole hzero hpoint hpower =>
    have hbehind := hpower.behind hrest
    obtain ⟨hnegative, htail⟩ := minus_append n hwhole (point ++ (power ++ rest))
    -- what `minus` leaves is equal to the digits and what follows, but the readers behind it name it as it is
    have hrun : Gives (run? Char.isDigit (minus (n.sign ++ (n.whole ++ (point ++ (power ++ rest))))).rest) n.whole
        (point ++ (power ++ rest)) := by
      rw [htail]
      exact run?_append hwhole (hpoint.behind hbehind)
    obtain ⟨_, hrun⟩ := hrun
    obtain ⟨_, hfraction⟩ := fraction?_append hpoint hbehind
    obtain ⟨_, hexponent⟩ := exponent?_append hpower hrest
    have hplain : ¬ (n.whole.head? = some '0' ∧ n.whole ≠ ['0']) := fun h => h.2 (hzero h.1)
    have htext : n.sign ++ (n.whole ++ (point ++ power)) ++ rest =
        n.sign ++ (n.whole ++ (point ++ (power ++ rest))) := by
      simp only [List.append_assoc]
    rw [htext, numeral?]
    simp only [hrun, Option.bind_some, hplain, if_false, hfraction, hexponent, Option.map_some]
    exact .of_eq rfl (congrArg (Numeral.mk · n.whole n.fraction n.exponent) hnegative) rfl

/-! ## Values -/

variable {P : Numeral → Prop}

theorem scalarValue?_append {v : Json} {text : List Char} (h : Scalar P v text) {rest : List Char}
    (hrest : AfterNumeral rest) : Gives (scalarValue? (text ++ rest)) v rest := by
  cases h with
  | null => exact front?_append 'n' ['u', 'l', 'l'] _ rest
  | true => exact front?_append 't' ['r', 'u', 'e'] _ rest
  | false => exact front?_append 'f' ['a', 'l', 's', 'e'] _ rest
  | @string chars body h =>
    obtain ⟨_, hbody⟩ := stringBody?_append h rest
    rw [between_append, scalarValue?, hbody]
    exact .of_eq rfl rfl rfl
  | @number numeral n _ _ h hn =>
    obtain ⟨_, hnumeral⟩ := numeral?_append h hrest
    obtain ⟨c, more, rfl, hc⟩ := h.head
    -- by its first character the text can only be a numeral
    have hplain : c ≠ '"' ∧ c ≠ 'n' ∧ c ≠ 't' ∧ c ≠ 'f' := by
      refine ⟨?_, ?_, ?_, ?_⟩ <;> rintro rfl <;> exact absurd hc (by decide)
    obtain ⟨hquote, hnull, htrue, hfalse⟩ := hplain
    show Gives (scalarValue? (c :: (more ++ rest))) _ rest
    have hnumeral' : numeral? (c :: (more ++ rest)) = _ := hnumeral
    rw [scalarValue?, hnumeral']
    · simp only [Option.bind_some, hn]
      exact .of_eq rfl rfl rfl
    · rintro _ ⟨⟩
      exact hquote rfl
    · rintro _ ⟨⟩
      exact hnull rfl
    · rintro _ ⟨⟩
      exact htrue rfl
    · rintro _ ⟨⟩
      exact hfalse rfl

/-- The reader takes each spelling in `R` whole, blanks before it left aside. -/
def TakesWhole {α : Type} (R : α → List Char → Prop) (element : (text : List Char) → Option (Taken α text)) : Prop :=
  ∀ {a : α} {before text rest : List Char}, R a text → Blank before → AfterNumeral rest →
    Gives (element (before ++ (text ++ rest))) a rest

section

variable {α : Type} {R : α → List Char → Prop} {close : Char} {element : (text : List Char) → Option (Taken α text)}

/-- By induction on the elements: behind each of them stands a comma or the closing bracket. -/
theorem elements?_append (hclose : close = ']' ∨ close = '\x7d') (helement : TakesWhole R element) {as : List α}
    {body : List Char} (h : Elements R as body) (rest : List Char) :
    Gives (elements? close element (body ++ close :: rest)) as rest := by
  have hmark : isSpace close = false ∧ close ≠ ',' ∧ inNumeral close = false := by
    rcases hclose with rfl | rfl <;> decide
  obtain ⟨hspace, hcomma, hnumeral⟩ := hmark
  induction h with
  | @last a before text behind hbefore h hbehind =>
    obtain ⟨_, hfirst⟩ := helement h hbefore (afterNumeral_append hbehind (afterNumeral_cons hnumeral rest))
    obtain ⟨_, hclosed⟩ := mark?_append hbehind hspace rest
    have htext : before ++ (text ++ behind) ++ close :: rest = before ++ (text ++ (behind ++ close :: rest)) := by
      simp only [List.append_assoc]
    rw [htext, elements?, hfirst]
    simp only [Option.bind_some, mark?_eq_none hbehind hspace hcomma rest, hclosed]
    exact .of_eq rfl rfl rfl
  | @comma a as before text behind body hbefore h hbehind _ ih =>
    obtain ⟨_, hfirst⟩ := helement h hbefore
      (afterNumeral_append hbehind (@afterNumeral_cons ',' (by decide) (body ++ close :: rest)))
    obtain ⟨_, hnext⟩ := @mark?_append behind hbehind ',' (by decide) (body ++ close :: rest)
    obtain ⟨_, hmore⟩ := ih
    have htext : before ++ (text ++ (behind ++ ',' :: body)) ++ close :: rest =
        before ++ (text ++ (behind ++ ',' :: (body ++ close :: rest))) := by
      simp only [List.append_assoc, List.cons_append]
    rw [htext, elements?, hfirst]
    simp only [Option.bind_some, hnext, hmore]
    exact .of_eq rfl rfl rfl

theorem list?_append (hclose : close = ']' ∨ close = '\x7d')
    (hbegins : ∀ {a : α} {text : List Char}, R a text → Begins text) (helement : TakesWhole R element)
    {as : List α} {body : List Char} (h : Listed R as body) (rest : List Char) :
    Gives (list? close element (body ++ close :: rest)) as rest := by
  unfold list?
  cases h with
  | none h =>
    have hspace : isSpace close = false := by rcases hclose with rfl | rfl <;> decide
    obtain ⟨_, hclosed⟩ := mark?_append h hspace rest
    rw [hclosed]
    exact .of_eq rfl rfl rfl
  | some h =>
    obtain ⟨_, helements⟩ := elements?_append hclose helement h rest
    obtain ⟨blanks, _, hbody, hblanks, c, more, rfl, hspace, hbracket, hbrace⟩ := h.begins hbegins
    have hne : c ≠ close := by
      rcases hclose with rfl | rfl
      · exact hbracket
      · exact hbrace
    have hnone : mark? close (body ++ close :: rest) = none := by
      rw [hbody, List.append_assoc]
      exact mark?_eq_none hblanks hspace hne (more ++ close :: rest)
    rw [hnone]
    exact .of_eq helements rfl rfl

end

theorem member?_takesWhole {R : Json → List Char → Prop} {value : (text : List Char) → Option (Taken Json text)}
    (hvalue : TakesWhole R value) : TakesWhole (Member R) (member? value) := by
  intro m start text rest h hstart hrest
  cases h with
  | @mk v chars key before behind text hkey hbefore hbehind h =>
    obtain ⟨_, hopened⟩ := @mark?_append start hstart '"' (by decide)
      (key ++ '"' :: (before ++ ':' :: (behind ++ (text ++ rest))))
    obtain ⟨_, hname⟩ := stringBody?_append hkey (before ++ ':' :: (behind ++ (text ++ rest)))
    obtain ⟨_, hcolon⟩ := @mark?_append before hbefore ':' (by decide) (behind ++ (text ++ rest))
    obtain ⟨_, hv⟩ := hvalue h hbehind hrest
    have htext : start ++ ('"' :: (key ++ '"' :: (before ++ ':' :: (behind ++ text))) ++ rest) =
        start ++ '"' :: (key ++ '"' :: (before ++ ':' :: (behind ++ (text ++ rest)))) := by
      simp only [List.append_assoc, List.cons_append]
    rw [htext, member?, hopened]
    simp only [Option.bind_some, hname, hcolon, hv]
    exact .of_eq rfl rfl rfl

/-- A reading behind blanks begins at the first character that is none. -/
theorem run_isSpace_begins {blanks : List Char} (h : Blank blanks) {text : List Char} (htext : Begins text)
    (rest : List Char) : ∃ notLonger, run isSpace (blanks ++ (text ++ rest)) = ⟨blanks, text ++ rest, notLonger⟩ := by
  obtain ⟨c, more, rfl, hc, -⟩ := htext
  exact run_isSpace_append h hc (more ++ rest)

theorem value?_scalar (budget : Nat) {v : Json} {before text rest : List Char} (h : Scalar P v text)
    (hbefore : Blank before) (hrest : AfterNumeral rest) : Gives (value? budget (before ++ (text ++ rest))) v rest := by
  obtain ⟨_, hrun⟩ := run_isSpace_begins hbefore h.begins rest
  obtain ⟨_, hscalar⟩ := scalarValue?_append h hrest
  obtain ⟨hbracket, hbrace⟩ := h.head?_ne rest
  rw [value?.eq_def, hrun]
  dsimp only
  rw [front?_eq_none hbracket, front?_eq_none hbrace, hscalar]
  exact .of_eq rfl rfl rfl

theorem value?_takesWhole (budget : Nat) : TakesWhole (Value P budget) (value? budget) := by
  induction budget with
  | zero =>
    intro v before text rest h hbefore hrest
    exact value?_scalar 0 h hbefore hrest
  | succ budget ih =>
    intro v before text rest h hbefore hrest
    rcases h with h | h
    · exact value?_scalar (budget + 1) h hbefore hrest
    · cases h with
      | @array items body h =>
        obtain ⟨_, hrun⟩ := @run_isSpace_append before hbefore '[' (by decide) (body ++ ']' :: rest)
        obtain ⟨_, hitems⟩ := list?_append (.inl rfl) Value.begins ih h rest
        rw [between_append, value?.eq_def, hrun]
        dsimp only
        rw [front?_cons]
        simp only [hitems]
        exact .of_eq rfl rfl rfl
      | @object members body h =>
        obtain ⟨_, hrun⟩ := @run_isSpace_append before hbefore '\x7b' (by decide) (body ++ '\x7d' :: rest)
        obtain ⟨_, hmembers⟩ := list?_append (.inr rfl) Member.begins (member?_takesWhole ih) h rest
        have hbracket : ('\x7b' :: (body ++ '\x7d' :: rest)).head? ≠ some '[' := fun h => by cases h
        rw [between_append, value?.eq_def, hrun]
        dsimp only
        rw [front?_eq_none hbracket, front?_cons]
        simp only [hmembers]
        exact .of_eq rfl rfl rfl

/-- A text that holds a value is read as it, also where more containers may nest. -/
theorem value?_of_holds {m n : Nat} (hmn : m ≤ n) {v : Json} {text : List Char} (h : Holds P m v text) :
    ∃ behind, Gives (value? n text) v behind ∧ Blank behind := by
  cases h with
  | @mk before text behind hbefore h hbehind =>
    exact ⟨behind, value?_takesWhole n (Value.mono hmn v text h) hbefore (afterNumeral_of_blank hbehind), hbehind⟩

end StateScript.Json.Reader

namespace StateScript.Json

open Text Grammar

/-- A text that holds a value, with no more containers nested than may be, is read as the value. -/
theorem read?_of_holds {P : Reader.Numeral → Prop} {text : List Char} {v : Json} (h : Holds P maxDepth v text) :
    read? text = some v := by
  obtain ⟨behind, ⟨_, hvalue⟩, hblank⟩ := Reader.value?_of_holds (Nat.le_refl maxDepth) h
  have hend : behind.dropWhile Reader.isSpace = [] := by
    have hdrop := @List.dropWhile_append_of_pos _ _ behind [] hblank
    rwa [List.append_nil] at hdrop
  rw [read?, hvalue]
  exact if_pos hend

/-- The texts that are read as a value are those that hold it. -/
theorem read?_eq_some_iff {text : List Char} {v : Json} :
    read? text = some v ↔ Holds Reader.AnyNumeral maxDepth v text :=
  ⟨holds_of_read?, read?_of_holds⟩

/-- A text holds one value, however many containers may nest: one reader reads them all. -/
theorem Grammar.Holds.unique {P Q : Reader.Numeral → Prop} {m n : Nat} {v w : Json} {text : List Char}
    (hv : Holds P m v text) (hw : Holds Q n w text) : v = w := by
  obtain ⟨_, ⟨_, hfirst⟩, -⟩ := Reader.value?_of_holds (Nat.le_max_left m n) hv
  obtain ⟨_, ⟨_, hsecond⟩, -⟩ := Reader.value?_of_holds (Nat.le_max_right m n) hw
  exact congrArg Taken.value (Option.some.inj (hfirst.symm.trans hsecond))

end StateScript.Json
