/-
Spellings of paths. A key can be written in a path text as it stands, if nothing in it has a meaning there; in
brackets, if it is a decimal number; and in brackets and quotes, whatever it is. Each text that writes a list of
keys so is read as just this list, and there is such a text for every list.

The keys are read one by one from the left. Where one ends, the next begins with a point or a bracket, or the text is
at its end; so nothing behind a key can be taken for a part of it.
-/
import StateScript.Path

namespace StateScript.Path

open Text

/-! ## Spellings -/

/-- A decimal number: an optional minus sign, digits, and optionally a point with digits behind it. -/
inductive IsDecimal : List Char → Prop where
  | mk {sign whole fraction : List Char} (hsign : sign = [] ∨ sign = ['-']) (hwhole : IsRun isScriptDigit whole)
    (hfraction : fraction = [] ∨ ∃ digits, IsRun isScriptDigit digits ∧ fraction = '.' :: digits) :
    IsDecimal (sign ++ (whole ++ fraction))

/-- A key as it stands between quotes: with a backslash before each such quote and each backslash. -/
def escaped (quote : Char) (key : List Char) : List Char :=
  key.flatMap fun c => if c = quote ∨ c = '\\' then ['\\', c] else [c]

/-- The ways to write one key. A key as it stands has a point before it, unless it is the first. -/
inductive SpelledKey : (first : Bool) → (key text : List Char) → Prop where
  | first {key : List Char} (hne : key ≠ []) (hkey : ∀ c ∈ ['.', '[', ']'], c ∉ key) : SpelledKey true key key
  | next {key : List Char} (hne : key ≠ []) (hkey : ∀ c ∈ ['.', '[', ']'], c ∉ key) : SpelledKey false key ('.' :: key)
  | number {first : Bool} {key : List Char} (hkey : IsDecimal key) : SpelledKey first key ('[' :: (key ++ [']']))
  | quoted {first : Bool} {quote : Char} (hquote : quote ∈ ['"', '\'']) (key : List Char) :
    SpelledKey first key ('[' :: quote :: (escaped quote key ++ [quote, ']']))

/-- The ways to write a list of keys, at the beginning of a path or further on. -/
inductive SpelledKeys : (first : Bool) → (keys : List (List Char)) → (text : List Char) → Prop where
  | nil {first : Bool} : SpelledKeys first [] []
  | cons {first : Bool} {key text more : List Char} {keys : List (List Char)} (hkey : SpelledKey first key text)
    (hmore : SpelledKeys false keys more) : SpelledKeys first (key :: keys) (text ++ more)

/-- The text is a way to write the path of these segments. -/
def Spells (text : String) (segments : List String) : Prop :=
  SpelledKeys true (segments.map String.toList) text.toList

variable {key text rest : List Char}

theorem isRun_plain (hne : key ≠ []) (hkey : ∀ c ∈ ['.', '[', ']'], c ∉ key) : IsRun isPlain key := by
  refine ⟨hne, fun c hc => ?_⟩
  have hmarks : c ≠ '.' ∧ c ≠ '[' ∧ c ≠ ']' :=
    ⟨fun h => hkey '.' (by simp) (h ▸ hc), fun h => hkey '[' (by simp) (h ▸ hc), fun h => hkey ']' (by simp) (h ▸ hc)⟩
  simp [isPlain, hmarks]

/-- What is written behind a key cannot go on with it. -/
theorem SpelledKeys.head? {keys : List (List Char)} (h : SpelledKeys false keys text) {c : Char}
    (hc : text.head? = some c) : isPlain c = false := by
  cases h with
  | nil => cases hc
  | cons hkey _ => cases hkey <;> cases hc <;> decide

/-! ## Keys as they stand -/

/-- A text is cut where the first character comes that is not in the class. -/
theorem cut_append {p : Char → Bool} (h : ∀ c ∈ key, p c = true) (hrest : ∀ c, rest.head? = some c → p c = false) :
    (key ++ rest).takeWhile p = key ∧ (key ++ rest).dropWhile p = rest := by
  obtain ⟨_, hrun⟩ := run_append h hrest
  exact ⟨congrArg Reached.value hrun, congrArg Reached.rest hrun⟩

theorem segmentsOf_point (rest : List Char) : segmentsOf ('.' :: rest) = segmentsOf rest := by
  have hbracket : bracketKey? ('.' :: rest) = none := rfl
  rw [segmentsOf, if_neg (by decide), hbracket]

theorem segmentsOf_plain_append (hkey : IsRun isPlain key) (hrest : ∀ c, rest.head? = some c → isPlain c = false) :
    segmentsOf (key ++ rest) = key :: segmentsOf rest := by
  obtain ⟨hne, hkey⟩ := hkey
  cases key with
  | nil => exact absurd rfl hne
  | cons c key =>
    obtain ⟨hc, hkey⟩ := List.forall_mem_cons.1 hkey
    obtain ⟨htake, hdrop⟩ := cut_append hkey hrest
    rw [List.cons_append, segmentsOf, if_pos hc, htake, hdrop]

/-! ## Keys in brackets -/

theorem segmentsOf_bracket {shorter : rest.length < ('[' :: text).length}
    (h : bracketKey? ('[' :: text) = some ⟨key, rest, shorter⟩) :
    segmentsOf ('[' :: text) = key :: segmentsOf rest := by
  rw [segmentsOf, if_neg (by decide), h]

theorem inBracketNumber_of_isDecimal (h : IsDecimal key) : ∀ c ∈ key, inBracketNumber c = true := by
  obtain ⟨hsign, hwhole, hfraction⟩ := h
  have hdigits : ∀ digits, IsRun isScriptDigit digits → ∀ c ∈ digits, inBracketNumber c = true := by
    intro digits hdigits c hc
    simp [inBracketNumber, hdigits.2 c hc]
  intro c hc
  rcases List.mem_append.1 hc with hc | hc
  · rcases hsign with rfl | rfl
    · cases hc
    · rw [List.mem_singleton.1 hc]
      decide
  · rcases List.mem_append.1 hc with hc | hc
    · exact hdigits _ hwhole c hc
    · rcases hfraction with rfl | ⟨digits, hfraction, rfl⟩
      · cases hc
      · rcases List.mem_cons.1 hc with rfl | hc
        · decide
        · exact hdigits _ hfraction c hc

/-- A number begins with a digit or a minus sign. -/
theorem exists_head_of_isDecimal (h : IsDecimal key) : ∃ c more, key = c :: more ∧ inBracketNumber c = true := by
  have hchars := inBracketNumber_of_isDecimal h
  cases key with
  | nil =>
    generalize hkey : [] = key at h
    obtain ⟨-, hwhole, -⟩ := h
    have hparts := List.append_eq_nil_iff.1 (List.append_eq_nil_iff.1 hkey.symm).2
    exact absurd hparts.1 hwhole.1
  | cons c more => exact ⟨c, more, rfl, hchars c List.mem_cons_self⟩

theorem isBracketNumber_append {whole fraction : List Char} (hwhole : IsRun isScriptDigit whole)
    (hfraction : fraction = [] ∨ ∃ digits, IsRun isScriptDigit digits ∧ fraction = '.' :: digits) :
    isBracketNumber (whole ++ fraction) = true ∧ isBracketNumber ('-' :: (whole ++ fraction)) = true := by
  have hend : ∀ c, fraction.head? = some c → isScriptDigit c = false := by
    intro c hc
    rcases hfraction with rfl | ⟨digits, -, rfl⟩ <;> cases hc
    decide
  obtain ⟨htake, hdrop⟩ := cut_append hwhole.2 hend
  have hsigned : isBracketNumber ('-' :: (whole ++ fraction)) = true := by
    simp only [isBracketNumber, htake, hdrop]
    rcases hfraction with rfl | ⟨digits, ⟨hne, hdigits⟩, rfl⟩
    · simpa using hwhole.1
    · simpa [hwhole.1, hne] using hdigits
  refine ⟨?_, hsigned⟩
  unfold isBracketNumber at hsigned ⊢
  split
  · next more hmore =>
    -- the first digit is no sign
    obtain ⟨d, digits, rfl⟩ := List.exists_cons_of_ne_nil hwhole.1
    obtain ⟨rfl, -⟩ := List.cons.inj hmore
    exact absurd (hwhole.2 '-' List.mem_cons_self) (by decide)
  · exact hsigned

theorem isBracketNumber_of_isDecimal (h : IsDecimal key) : isBracketNumber key = true := by
  obtain ⟨rfl | rfl, hwhole, hfraction⟩ := h
  · exact (isBracketNumber_append hwhole hfraction).1
  · exact (isBracketNumber_append hwhole hfraction).2

theorem numberKey?_append (h : IsDecimal key) (rest : List Char) :
    ∃ shorter, numberKey? (key ++ ']' :: rest) = some ⟨key, rest, shorter⟩ := by
  have hend : ∀ c, (']' :: rest).head? = some c → inBracketNumber c = false := by
    intro c hc
    cases hc
    decide
  obtain ⟨htake, hdrop⟩ := cut_append (inBracketNumber_of_isDecimal h) hend
  have hshorter : rest.length < (key ++ ']' :: rest).length := by
    rw [List.length_append, List.length_cons]
    omega
  refine ⟨hshorter, ?_⟩
  unfold numberKey?
  split
  · next r hr =>
    obtain rfl : rest = r := (List.cons.inj (hdrop.symm.trans hr)).2
    simp only [htake, isBracketNumber_of_isDecimal h, if_true]
  · next hnone => exact absurd hdrop (hnone rest)

theorem bracketKey?_number (h : IsDecimal key) (rest : List Char) :
    ∃ shorter, bracketKey? ('[' :: (key ++ ']' :: rest)) = some ⟨key, rest, shorter⟩ := by
  obtain ⟨_, hnumber⟩ := numberKey?_append h rest
  obtain ⟨c, more, hkey, hc⟩ := exists_head_of_isDecimal h
  have hquote : ∀ quote text, inBracketNumber quote = false → key ++ ']' :: rest = quote :: text → False := by
    intro quote text hquote htext
    rw [hkey] at htext
    rw [← (List.cons.inj htext).1, hc] at hquote
    cases hquote
  rw [bracketKey?, hnumber]
  · exact ⟨_, rfl⟩
  · exact fun text => hquote '"' text (by decide)
  · exact fun text => hquote '\'' text (by decide)

/-- A character without a meaning between the quotes stands for itself. -/
theorem quotedKey?_raw {quote c : Char} (hquote : c ≠ quote) (hback : c ≠ '\\') (text : List Char) :
    quotedKey? quote (c :: text) = (quotedKey? quote text).map fun key => (key.map (c :: ·)).behind c := by
  by_cases hclose : ∃ rest, text = ']' :: rest
  · obtain ⟨rest, rfl⟩ := hclose
    rw [quotedKey?, if_neg hquote]
    · exact fun h => absurd h hback
    · exact fun _ _ h => absurd h hback
  · rw [quotedKey?, if_neg hquote]
    · exact fun h => absurd h hback
    · exact fun _ _ h => absurd h hback
    · exact fun rest h => hclose ⟨rest, h⟩

theorem quotedKey?_close {quote : Char} (hback : quote ≠ '\\') (rest : List Char) :
    ∃ shorter, quotedKey? quote (quote :: ']' :: rest) = some ⟨[], rest, shorter⟩ := by
  rw [quotedKey?, if_pos rfl]
  · exact ⟨_, rfl⟩
  · exact fun h => absurd h hback
  · exact fun _ _ h => absurd h hback

theorem quotedKey?_escaped {quote : Char} (hquote : quote ∈ ['"', '\'']) (key rest : List Char) :
    ∃ shorter, quotedKey? quote (escaped quote key ++ quote :: ']' :: rest) = some ⟨key, rest, shorter⟩ := by
  have hmark : quote ≠ '\\' ∧ quote ≠ '\n' := by
    simp only [List.mem_cons, List.not_mem_nil, or_false] at hquote
    rcases hquote with rfl | rfl <;> decide
  induction key with
  | nil => exact quotedKey?_close hmark.1 rest
  | cons c key ih =>
    obtain ⟨_, ih⟩ := ih
    have hescaped : escaped quote (c :: key) =
        (if c = quote ∨ c = '\\' then ['\\', c] else [c]) ++ escaped quote key := List.flatMap_cons
    rw [hescaped]
    by_cases hc : c = quote ∨ c = '\\'
    · -- neither mark is a line feed, so a backslash may stand before it
      have hline : c ≠ '\n' := by
        rcases hc with rfl | rfl
        · exact hmark.2
        · decide
      rw [if_pos hc]
      show ∃ shorter, quotedKey? quote ('\\' :: c :: (escaped quote key ++ quote :: ']' :: rest)) = some ⟨_, _, shorter⟩
      rw [quotedKey?, if_neg hline, ih]
      exact ⟨_, rfl⟩
    · obtain ⟨hcq, hcb⟩ := not_or.1 hc
      rw [if_neg hc]
      show ∃ shorter, quotedKey? quote (c :: (escaped quote key ++ quote :: ']' :: rest)) = some ⟨_, _, shorter⟩
      rw [quotedKey?_raw hcq hcb, ih]
      exact ⟨_, rfl⟩

theorem bracketKey?_quoted {quote : Char} (hquote : quote ∈ ['"', '\'']) (key rest : List Char) :
    ∃ shorter, bracketKey? ('[' :: quote :: (escaped quote key ++ quote :: ']' :: rest)) =
      some ⟨key, rest, shorter⟩ := by
  obtain ⟨_, hkey⟩ := quotedKey?_escaped hquote key rest
  simp only [List.mem_cons, List.not_mem_nil, or_false] at hquote
  rcases hquote with rfl | rfl <;> (rw [bracketKey?, hkey]; exact ⟨_, rfl⟩)

/-! ## Path texts -/

/-- A key is read as it is written, whatever is written behind it. -/
theorem segmentsOf_spelledKey {first : Bool} (h : SpelledKey first key text)
    (hrest : ∀ c, rest.head? = some c → isPlain c = false) : segmentsOf (text ++ rest) = key :: segmentsOf rest := by
  cases h with
  | first hne hkey => exact segmentsOf_plain_append (isRun_plain hne hkey) hrest
  | next hne hkey =>
    rw [List.cons_append, segmentsOf_point]
    exact segmentsOf_plain_append (isRun_plain hne hkey) hrest
  | number hkey =>
    obtain ⟨_, hbracket⟩ := bracketKey?_number hkey rest
    rw [between_append]
    exact segmentsOf_bracket hbracket
  | quoted hquote key =>
    obtain ⟨_, hbracket⟩ := bracketKey?_quoted hquote key rest
    rw [List.cons_append, List.cons_append, List.append_assoc]
    exact segmentsOf_bracket hbracket

theorem segmentsOf_spelledKeys {first : Bool} {keys : List (List Char)} (h : SpelledKeys first keys text) :
    segmentsOf text = keys := by
  induction h with
  | nil => rw [segmentsOf]
  | cons hkey hmore ih => rw [segmentsOf_spelledKey hkey fun _ hc => hmore.head? hc, ih]

theorem exists_spelledKeys (first : Bool) (keys : List (List Char)) : ∃ text, SpelledKeys first keys text := by
  induction keys generalizing first with
  | nil => exact ⟨[], .nil⟩
  | cons key keys ih =>
    obtain ⟨more, hmore⟩ := ih false
    have hquote : '"' ∈ ['"', '\''] := List.mem_cons_self
    exact ⟨_, .cons (.quoted hquote key) hmore⟩

theorem ofText?_of_segments {text : String} {segments : List String}
    (h : (segmentsOf text.toList).map String.ofList = segments) (hne : segments ≠ []) :
    ofText? text = some ⟨text, segments, hne⟩ := by
  subst h
  exact dif_pos hne

/-- Every list of keys has a path text, and each text that writes it is read as the path of these keys. -/
theorem ofText?_of_spells {segments : List String} (hne : segments ≠ []) :
    (∃ text, Spells text segments) ∧ ∀ text, Spells text segments → ofText? text = some ⟨text, segments, hne⟩ := by
  constructor
  · obtain ⟨text, htext⟩ := exists_spelledKeys true (segments.map String.toList)
    refine ⟨String.ofList text, ?_⟩
    rw [Spells, String.toList_ofList]
    exact htext
  · intro text h
    refine ofText?_of_segments ?_ hne
    rw [segmentsOf_spelledKeys h, List.map_map]
    simp [Function.comp_def]

/-- A key in each way: as it stands at the beginning and behind a point, as a number, and in quotes of either kind,
where one has an escaped quote, a line feed and a point in it and the other is empty. -/
theorem ofText?_of_spells_each_way :
    let segments := ["a b", "-1.50", "it's\n.", "", "\\z"]
    let text := "a b[-1.50]['it\\'s\n.'][\"\"].\\z"
    ∃ hne, Spells text segments ∧ ofText? text = some ⟨text, segments, hne⟩ := by
  intro segments text
  have hne : segments ≠ [] := List.cons_ne_nil _ _
  have hnumber : IsDecimal ['-', '1', '.', '5', '0'] :=
    .mk (.inr rfl) ⟨List.cons_ne_nil _ _, List.forall_mem_singleton.2 (rfl : isScriptDigit '1' = true)⟩
      (.inr ⟨['5', '0'], ⟨List.cons_ne_nil _ _, List.forall_mem_cons.2 ⟨rfl, List.forall_mem_singleton.2 rfl⟩⟩, rfl⟩)
  have hkeys : segments.map String.toList =
      [['a', ' ', 'b'], ['-', '1', '.', '5', '0'], ['i', 't', '\'', 's', '\n', '.'], [], ['\\', 'z']] := by decide
  have htext : text.toList = ['a', ' ', 'b'] ++ (('[' :: (['-', '1', '.', '5', '0'] ++ [']'])) ++
      (('[' :: '\'' :: (escaped '\'' ['i', 't', '\'', 's', '\n', '.'] ++ ['\'', ']'])) ++
      (('[' :: '"' :: (escaped '"' [] ++ ['"', ']'])) ++ (['.', '\\', 'z'] ++ [])))) := by decide
  have hspells : Spells text segments := by
    rw [Spells, hkeys, htext]
    refine .cons (.first (List.cons_ne_nil _ _) (by simp)) (.cons (.number hnumber) ?_)
    refine .cons (.quoted (by decide) _) (.cons (.quoted (by decide) _) ?_)
    exact .cons (.next (List.cons_ne_nil _ _) (by simp)) .nil
  exact ⟨hne, hspells, (ofText?_of_spells hne).2 text hspells⟩

end StateScript.Path
