/-
White space of a text: the characters of the Unicode property `White_Space`, and `trim`, which cuts
a text free of them at both ends. A trimmed text is an infix of the text that it came from, what is
cut off is blank, and its own first and last characters are not.
-/

namespace StateScript.Text

/-- The characters of the Unicode property `White_Space`. -/
def isBlank (c : Char) : Bool :=
  c == ' ' || (9 ≤ c.toNat && c.toNat ≤ 13) ||
  (c.toNat ≥ 128 &&
    (c.toNat == 0x85 || c.toNat == 0xa0 || c.toNat == 0x1680 || (0x2000 ≤ c.toNat && c.toNat ≤ 0x200a) ||
      c.toNat == 0x2028 || c.toNat == 0x2029 || c.toNat == 0x202f || c.toNat == 0x205f || c.toNat == 0x3000))

/-- The text without the blanks it begins with. -/
def trimStart (text : List Char) : List Char := text.dropWhile isBlank

/-- The text without the blanks it ends in. -/
def trimEnd (text : List Char) : List Char := (text.reverse.dropWhile isBlank).reverse

/-- The text without the blanks at its two ends. -/
def trim (text : List Char) : List Char := trimEnd (trimStart text)

/-! ## What is cut off -/

theorem ne_of_isBlank {c d : Char} (h : isBlank c = true) (hd : isBlank d = false) : c ≠ d := by
  rintro rfl
  rw [h] at hd
  cases hd

/-- The blanks cut off at the front, and the rest, make up the text. -/
theorem takeWhile_append_trimStart (text : List Char) : text.takeWhile isBlank ++ trimStart text = text :=
  List.takeWhile_append_dropWhile

/-- The blanks cut off at the end, and the rest, make up the text. -/
theorem trimEnd_append (text : List Char) :
    trimEnd text ++ (text.reverse.takeWhile isBlank).reverse = text := by
  rw [trimEnd, ← List.reverse_append, List.takeWhile_append_dropWhile, List.reverse_reverse]

/-- A text without a blank at its front keeps its front. -/
theorem trimStart_cons {c : Char} (text : List Char) (h : isBlank c = false) :
    trimStart (c :: text) = c :: text := by
  simp [trimStart, h]

theorem trimStart_eq_self {text : List Char} (h : ∀ c, text.head? = some c → isBlank c = false) :
    trimStart text = text := by
  cases text with
  | nil => rfl
  | cons c rest => exact trimStart_cons rest (h c rfl)

/-- A text without a blank at its ends stays as it is. -/
theorem trim_eq_self {text : List Char} (hfirst : ∀ c, text.head? = some c → isBlank c = false)
    (hlast : ∀ c, text.getLast? = some c → isBlank c = false) : trim text = text := by
  have hreverse : trimStart text.reverse = text.reverse := by
    refine trimStart_eq_self fun c hc => hlast c ?_
    rwa [← List.head?_reverse]
  have hend : trimEnd text = text := (congrArg List.reverse hreverse).trans text.reverse_reverse
  rw [trim, trimStart_eq_self hfirst, hend]

@[simp] theorem trim_nil : trim [] = [] := rfl

/-- A trimmed text has blanks only before it and behind it in the text that it came from. -/
theorem exists_trim (text : List Char) : ∃ before behind, text = before ++ trim text ++ behind ∧
    (∀ c ∈ before, isBlank c = true) ∧ ∀ c ∈ behind, isBlank c = true := by
  refine ⟨text.takeWhile isBlank, ((trimStart text).reverse.takeWhile isBlank).reverse, ?_, ?_, ?_⟩
  · rw [trim, List.append_assoc, trimEnd_append, takeWhile_append_trimStart]
  · exact fun c hc => List.all_eq_true.1 List.all_takeWhile c hc
  · exact fun c hc => List.all_eq_true.1 List.all_takeWhile c (List.mem_reverse.1 hc)

/-- A blank before a text does not show in the trimmed text. -/
theorem trim_blank_cons {c : Char} (h : isBlank c = true) (text : List Char) : trim (c :: text) = trim text := by
  rw [trim, trimStart, List.dropWhile_cons_of_pos h, ← trimStart, ← trim]

theorem head?_trimStart {text : List Char} {c : Char} (h : (trimStart text).head? = some c) :
    isBlank c = false := by
  have := List.head?_dropWhile_not isBlank text
  rw [trimStart] at h
  rw [h] at this
  simpa using this

theorem trimStart_trimStart (text : List Char) : trimStart (trimStart text) = trimStart text := by
  cases h : trimStart text with
  | nil => rfl
  | cons c rest => exact trimStart_cons rest (head?_trimStart (by rw [h]; rfl))

@[simp] theorem trim_trim (text : List Char) : trim (trim text) = trim text := by
  have hend : ∀ t : List Char, trimEnd (trimEnd t) = trimEnd t := fun t => by
    rw [trimEnd, trimEnd, List.reverse_reverse]
    exact congrArg List.reverse (trimStart_trimStart t.reverse)
  have hstart : trimStart (trim text) = trim text := by
    cases h : trim text with
    | nil => rfl
    | cons c rest =>
      -- what is left of a text at its end begins as the text does
      have hc : (trimStart text).head? = some c := by
        rw [← trimEnd_append (trimStart text), ← trim, h]
        rfl
      exact trimStart_cons rest (head?_trimStart hc)
  rw [trim, hstart, trim, hend]

end StateScript.Text
