/-
Quoted strings as they are written. Between its marks a character stands for itself, unless it is the
mark or a backslash, or stands behind a backslash in one of the forms of an escape; an escaped line
feed stands for nothing. However the characters are written, the reader gets them back and stops
behind the mark that closes the string.
-/
import StateScript.Proofs.Literal.Gap

namespace StateScript.Literal

open Text

/-! ## Spellings of strings -/

/-- The letters with a meaning behind a backslash, and the characters that they name. -/
def namedEscapes : List (Char × Char) :=
  [('n', '\n'), ('r', '\r'), ('t', '\t'), ('b', '\x08'), ('f', '\x0c'), ('v', '\x0b'), ('0', '\x00')]

/-- The characters for which a text behind a backslash stands. -/
inductive Escape : List Char → List Char → Prop where
  | name {c d : Char} (h : (c, d) ∈ namedEscapes) : Escape [d] [c]
  | itself {c : Char} (h : c ∉ ['n', 'r', 't', 'b', 'f', 'v', '0', 'u', 'x', '\n']) : Escape [c] [c]
  | byte {c : Char} {digits : List Char} (hlen : digits.length = 2) (h : ofHex? digits = some c.toNat) :
    Escape [c] ('x' :: digits)
  | unit {c : Char} {digits : List Char} (hlen : digits.length = 4) (h : ofHex? digits = some c.toNat) :
    Escape [c] ('u' :: digits)
  | pair {c : Char} {high low : List Char} {m n : Nat} (hhigh : high.length = 4) (hlow : low.length = 4)
    (hm : ofHex? high = some m) (hn : ofHex? low = some n) (hms : isHighSurrogate m = true)
    (hns : isLowSurrogate n = true) (h : ofSurrogates m n = c.toNat) :
    Escape [c] ('u' :: (high ++ '\\' :: 'u' :: low))
  | braced {c : Char} {digits : List Char} (h : ofHex? digits = some c.toNat) :
    Escape [c] ('u' :: '\x7b' :: (digits ++ ['\x7d']))
  | lineEnd : Escape [] ['\n']

/-- The characters for which a text between two marks stands. -/
inductive Body (quote : Char) : List Char → List Char → Prop where
  | nil : Body quote [] []
  | raw {c : Char} {chars text : List Char} (hquote : c ≠ quote) (hback : c ≠ '\\') (h : Body quote chars text) :
    Body quote (c :: chars) (c :: text)
  | escape {front esc chars text : List Char} (he : Escape front esc) (h : Body quote chars text) :
    Body quote (front ++ chars) ('\\' :: (esc ++ text))

/-- The spellings of a string: in any of the marks, with its characters written in any way. -/
inductive SpelledString : String → List Char → Prop where
  | mk {quote : Char} {chars body : List Char} (hquote : isQuote quote = true) (h : Body quote chars body) :
    SpelledString (String.ofList chars) (quote :: (body ++ [quote]))

/-! ## Hexadecimal digits -/

/-- A hexadecimal digit is one byte, and neither a sign nor a brace. -/
theorem of_hexValue? {c : Char} (h : (hexValue? c).isSome = true) :
    c.utf8Size = 1 ∧ c ≠ '+' ∧ c ≠ '\x7b' ∧ c ≠ '\x7d' := by
  have hsmall : c.toNat < 128 := by
    unfold hexValue? at h
    split at h
    · next hd => exact toNat_lt_of_isDigit hd
    · split at h
      · next hd => exact Nat.lt_of_le_of_lt hd.2 (by decide)
      · split at h
        · next hd => exact Nat.lt_of_le_of_lt hd.2 (by decide)
        · cases h
  exact of_ascii (P := fun c => (hexValue? c).isSome = true → c.utf8Size = 1 ∧ c ≠ '+' ∧ c ≠ '\x7b' ∧ c ≠ '\x7d')
    (by decide) hsmall h

theorem byteCount_hex {digits : List Char} (h : ∀ c ∈ digits, (hexValue? c).isSome = true) :
    byteCount digits = digits.length := by
  induction digits with
  | nil => rfl
  | cons c digits ih =>
    rw [byteCount_cons, (of_hexValue? (h c List.mem_cons_self)).1, ih fun d hd => h d (List.mem_cons_of_mem _ hd),
      List.length_cons, Nat.add_comm]

theorem hexWord?_of_ofHex? {digits : List Char} {n : Nat} (h : ofHex? digits = some n) (hn : n < 0x100000000) :
    hexWord? digits = some n := by
  have hdigits := hexValue?_of_mem h
  unfold hexWord?
  split
  · next rest => exact absurd rfl (of_hexValue? (hdigits '+' List.mem_cons_self)).2.1
  · show (ofHex? digits).filter _ = _
    rw [h, Option.filter_some_pos (by simpa using hn)]

/-- Digits do not begin with a brace. -/
theorem head?_hex_ne {digits : List Char} {n : Nat} (h : ofHex? digits = some n) (text : List Char) :
    (digits ++ text).head? ≠ some '\x7b' := by
  rcases digits with _ | ⟨d, digits⟩
  · cases h
  · rintro ⟨⟩
    exact (of_hexValue? (hexValue?_of_mem h _ List.mem_cons_self)).2.2.1 rfl

/-- So many digits are read, whatever stands behind them. -/
theorem hexEscape_append {digits : List Char} {n size : Nat} (hlen : digits.length = size)
    (h : ofHex? digits = some n) (hn : n < 0x100000000) (rest : List Char) :
    Reaches (hexEscape size (digits ++ rest)) n rest := by
  have hsplit := splitBytes?_byteCount digits rest
  rw [byteCount_hex (hexValue?_of_mem h), hlen] at hsplit
  unfold hexEscape
  split
  · next hnone => cases hsplit.symm.trans hnone
  · next d r hsome =>
    cases hsplit.symm.trans hsome
    rw [hexWord?_of_ofHex? h hn]
    exact .of_eq rfl rfl rfl

/-! ## Escapes -/

theorem orReplacement_toNat (c : Char) : orReplacement c.toNat = c := by
  rw [orReplacement, scalar?_toNat]
  rfl

theorem toNat_lt (c : Char) : c.toNat < 0x100000000 := c.val.toNat_lt

theorem bracedEscape_append {c : Char} {digits : List Char} (h : ofHex? digits = some c.toNat) (rest : List Char) :
    Reaches (bracedEscape (digits ++ '\x7d' :: rest)) c rest := by
  have hne : ∀ d ∈ digits, decide (d ≠ '\x7d') = true := fun d hd =>
    decide_eq_true (of_hexValue? (hexValue?_of_mem h d hd)).2.2.2
  obtain ⟨_, hrun⟩ := @run_append (· ≠ '\x7d') digits ('\x7d' :: rest) hne fun _ hd => by cases hd; decide
  unfold bracedEscape
  rw [hrun]
  simp only [front?_cons, hexWord?_of_ofHex? h (toNat_lt c), orReplacement_toNat]
  exact .of_eq rfl rfl rfl

theorem unitEscape_append {c : Char} {digits : List Char} (hlen : digits.length = 4) (h : ofHex? digits = some c.toNat)
    (rest : List Char) : Reaches (unitEscape (digits ++ rest)) c rest := by
  obtain ⟨_, hfirst⟩ := hexEscape_append hlen h (toNat_lt c) rest
  unfold unitEscape
  rw [hfirst]
  simp only [bind, Except.bind, not_isHighSurrogate_toNat, orReplacement_toNat]
  exact .of_eq rfl rfl rfl

theorem unitEscape_pair {c : Char} {high low : List Char} {m n : Nat} (hhigh : high.length = 4) (hlow : low.length = 4)
    (hm : ofHex? high = some m) (hn : ofHex? low = some n) (hms : isHighSurrogate m = true)
    (hns : isLowSurrogate n = true) (h : ofSurrogates m n = c.toNat) (rest : List Char) :
    Reaches (unitEscape (high ++ '\\' :: 'u' :: (low ++ rest))) c rest := by
  have hm32 : m < 0x100000000 := by
    simp only [isHighSurrogate, Bool.and_eq_true, decide_eq_true_eq] at hms
    omega
  have hn32 : n < 0x100000000 := by
    simp only [isLowSurrogate, Bool.and_eq_true, decide_eq_true_eq] at hns
    omega
  obtain ⟨_, hfirst⟩ := hexEscape_append hhigh hm hm32 ('\\' :: 'u' :: (low ++ rest))
  obtain ⟨_, hsecond⟩ := hexEscape_append hlow hn hn32 rest
  obtain ⟨_, hmark⟩ := front?_append '\\' ['u'] () (low ++ rest)
  have hmark' : front? '\\' ['u'] () ('\\' :: 'u' :: (low ++ rest)) = _ := hmark
  unfold unitEscape
  rw [hfirst]
  simp only [bind, Except.bind, hms, hmark', hsecond, hns, h, orReplacement_toNat]
  exact .of_eq rfl rfl rfl

/-- An escape is read as the characters for which it stands. -/
theorem escaped_append {front esc : List Char} (h : Escape front esc) (rest : List Char) :
    Takes (escaped (esc ++ rest)) front rest := by
  cases h with
  | @name c d h =>
    have hname : ∀ p ∈ namedEscapes, p.1 ≠ 'u' ∧ p.1 ≠ 'x' ∧ p.1 ≠ '\n' ∧ named p.1 = p.2 := by decide
    obtain ⟨hu, hx, hn, hnamed⟩ := hname _ h
    show Takes (escaped (c :: rest)) [d] rest
    rw [escaped, if_neg hu, if_neg hx, if_neg hn]
    exact .of_eq rfl (congrArg (fun e => [e]) hnamed) rfl
  | @itself c h =>
    simp only [List.mem_cons, List.not_mem_nil, or_false, not_or] at h
    obtain ⟨hn, hr, ht, hb, hf, hv, h0, hu, hx, hline⟩ := h
    have hnamed : named c = c := by
      simp only [named, hn, hr, ht, hb, hf, hv, h0, if_false]
    show Takes (escaped (c :: rest)) [c] rest
    rw [escaped, if_neg hu, if_neg hx, if_neg hline]
    exact .of_eq rfl (congrArg (fun e => [e]) hnamed) rfl
  | @byte c digits hlen h =>
    obtain ⟨_, hbyte⟩ := hexEscape_append hlen h (toNat_lt c) rest
    show Takes (escaped ('x' :: (digits ++ rest))) [c] rest
    rw [escaped, if_neg (by decide), if_pos rfl, hbyte]
    exact .of_eq rfl (congrArg (fun e => [e]) (orReplacement_toNat c)) rfl
  | @unit c digits hlen h =>
    obtain ⟨_, hunit⟩ := unitEscape_append hlen h rest
    show Takes (escaped ('u' :: (digits ++ rest))) [c] rest
    rw [escaped, if_pos rfl, front?_eq_none (head?_hex_ne h rest), hunit]
    exact .of_eq rfl rfl rfl
  | @pair c high low m n hhigh hlow hm hn hms hns h =>
    obtain ⟨_, hunit⟩ := unitEscape_pair hhigh hlow hm hn hms hns h rest
    have htext : 'u' :: (high ++ '\\' :: 'u' :: low) ++ rest = 'u' :: (high ++ '\\' :: 'u' :: (low ++ rest)) := by
      simp only [List.cons_append, List.append_assoc]
    rw [htext, escaped, if_pos rfl, front?_eq_none (head?_hex_ne hm _), hunit]
    exact .of_eq rfl rfl rfl
  | @braced c digits h =>
    obtain ⟨_, hbraced⟩ := bracedEscape_append h rest
    have htext : 'u' :: '\x7b' :: (digits ++ ['\x7d']) ++ rest = 'u' :: '\x7b' :: (digits ++ '\x7d' :: rest) := by
      simp only [List.cons_append, List.append_assoc, List.nil_append]
    rw [htext, escaped, if_pos rfl, front?_cons]
    simp only [hbraced]
    exact .of_eq rfl rfl rfl
  | lineEnd =>
    show Takes (escaped ('\n' :: rest)) [] rest
    rw [escaped, if_neg (by decide), if_neg (by decide), if_pos rfl]
    exact .of_eq rfl rfl rfl

/-! ## Strings -/

/-- A quoted string is read as its characters, up to and with its closing mark. -/
theorem quoted_append {quote : Char} (hquote : isQuote quote = true) {chars body : List Char}
    (h : Body quote chars body) (rest : List Char) : Takes (quoted quote (body ++ quote :: rest)) chars rest := by
  induction h with
  | nil =>
    show Takes (quoted quote (quote :: rest)) [] rest
    rw [quoted, if_pos rfl]
    exact .of_eq rfl rfl rfl
  | @raw c chars body hc hback _ ih =>
    obtain ⟨_, ih⟩ := ih
    show Takes (quoted quote (c :: (body ++ quote :: rest))) (c :: chars) rest
    rw [quoted, if_neg hc, if_neg hback, ih]
    exact .of_eq rfl rfl rfl
  | @escape front esc chars body he _ ih =>
    obtain ⟨_, ih⟩ := ih
    obtain ⟨_, hfront⟩ := escaped_append he (body ++ quote :: rest)
    have hback : '\\' ≠ quote := by
      rintro rfl
      cases hquote
    have htext : '\\' :: (esc ++ body) ++ quote :: rest = '\\' :: (esc ++ (body ++ quote :: rest)) := by
      simp only [List.cons_append, List.append_assoc]
    rw [htext, quoted, if_neg hback, if_pos rfl, hfront]
    simp only [bind, Except.bind, ih]
    exact .of_eq rfl rfl rfl

/-- A spelled string begins with a mark, and what follows is read as the string. -/
theorem SpelledString.exists_quoted {s : String} {text : List Char} (h : SpelledString s text) :
    ∃ quote more, text = quote :: more ∧ isQuote quote = true ∧
      ∀ rest, Takes (quoted quote (more ++ rest)) s.toList rest := by
  cases h with
  | @mk quote chars body hquote h =>
    refine ⟨quote, body ++ [quote], rfl, hquote, fun rest => ?_⟩
    rw [List.append_assoc, String.toList_ofList]
    exact quoted_append hquote h rest

end StateScript.Literal
