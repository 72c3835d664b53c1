/-
Characters by number. A Unicode scalar value is a number up to 10FFFF outside the surrogates, and a
pair of a high and a low surrogate stands for one beyond FFFF.
-/

namespace StateScript.Text

/-- The character of a number, if the number is a scalar value. -/
def scalar? (n : Nat) : Option Char := if n.isValidChar then some (Char.ofNat n) else none

/-- The first half of a surrogate pair. -/
def isHighSurrogate (n : Nat) : Bool := 0xd800 ≤ n && n ≤ 0xdbff

/-- The second half of a surrogate pair. -/
def isLowSurrogate (n : Nat) : Bool := 0xdc00 ≤ n && n ≤ 0xdfff

/-- The number that a surrogate pair stands for. -/
def ofSurrogates (high low : Nat) : Nat := 0x10000 + (high - 0xd800) * 0x400 + (low - 0xdc00)

/-- The number of a character gives the character back. -/
theorem scalar?_toNat (c : Char) : scalar? c.toNat = some c := by
  have : c.toNat.isValidChar := c.valid
  simp [scalar?, this]

theorem toNat_of_scalar? {n : Nat} {c : Char} (h : scalar? n = some c) : c.toNat = n := by
  unfold scalar? at h
  split at h
  · next hvalid =>
    cases h
    rw [Char.ofNat, dif_pos hvalid]
    rfl
  · cases h

/-- No character is half of a pair. -/
theorem not_isHighSurrogate_toNat (c : Char) : isHighSurrogate c.toNat = false := by
  have hc : c.toNat.isValidChar := c.valid
  rw [← Bool.not_eq_true]
  intro h
  simp only [isHighSurrogate, Bool.and_eq_true, decide_eq_true_eq] at h
  rcases hc with hc | ⟨hc, -⟩ <;> omega

/-- A pair stands for a scalar value: the halves leave no room for more. -/
theorem isValidChar_ofSurrogates {high low : Nat} (hh : isHighSurrogate high = true)
    (hl : isLowSurrogate low = true) : (ofSurrogates high low).isValidChar := by
  simp only [isHighSurrogate, isLowSurrogate, Bool.and_eq_true, decide_eq_true_eq] at hh hl
  refine Or.inr ⟨?_, ?_⟩ <;> unfold ofSurrogates <;> omega

end StateScript.Text
