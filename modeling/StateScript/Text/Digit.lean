/-
Numbers as runs of digits: reading and writing decimal numerals, and reading hexadecimal ones.
`ofDigits (toDigits n) = n`, and `toDigits` writes no digit that it need not.
-/

namespace StateScript.Text

/-- The value of a decimal digit. -/
def digitValue (c : Char) : Nat := c.toNat - '0'.toNat

/-- The decimal digit of a value below ten. -/
def digitChar (n : Nat) : Char := Char.ofNat ('0'.toNat + n)

/-- The number that a run of decimal digits denotes. -/
def ofDigits (digits : List Char) : Nat := digits.foldl (fun n c => 10 * n + digitValue c) 0

/-- The decimal digits of a number, without leading zeros. -/
def toDigits (n : Nat) : List Char :=
  if n < 10 then [digitChar n] else toDigits (n / 10) ++ [digitChar (n % 10)]
termination_by n
decreasing_by omega

/-- The decimal digits of an integer, after a minus sign if it is negative. -/
def intDigits (i : Int) : List Char :=
  if i < 0 then '-' :: toDigits i.natAbs else toDigits i.natAbs

/-- The value of a hexadecimal digit. -/
def hexValue? (c : Char) : Option Nat :=
  if c.isDigit then some (digitValue c)
  else if 'a'.toNat ≤ c.toNat ∧ c.toNat ≤ 'f'.toNat then some (c.toNat - 'a'.toNat + 10)
  else if 'A'.toNat ≤ c.toNat ∧ c.toNat ≤ 'F'.toNat then some (c.toNat - 'A'.toNat + 10)
  else none

/-- The lower case hexadecimal digit of a value below sixteen. -/
def hexChar (n : Nat) : Char := if n < 10 then digitChar n else Char.ofNat ('a'.toNat + (n - 10))

/-- The number that a run of hexadecimal digits denotes; there is at least one. -/
def ofHex? : List Char → Option Nat
  | [] => none
  | digits => digits.foldlM (fun n c => (hexValue? c).map (16 * n + ·)) 0

/-! ## Reading what was written -/

theorem digitValue_digitChar : ∀ n, n < 10 → digitValue (digitChar n) = n := by decide

theorem isDigit_digitChar : ∀ n, n < 10 → (digitChar n).isDigit = true := by decide

theorem ofDigits_append_digit (digits : List Char) (c : Char) :
    ofDigits (digits ++ [c]) = 10 * ofDigits digits + digitValue c := by
  simp [ofDigits]

theorem ofDigits_toDigits (n : Nat) : ofDigits (toDigits n) = n := by
  induction n using Nat.strongRecOn with
  | ind n ih =>
    rw [toDigits]
    split
    · next h => simpa [ofDigits] using digitValue_digitChar n h
    · next h =>
      rw [ofDigits_append_digit, ih (n / 10) (by omega), digitValue_digitChar _ (by omega)]
      omega

theorem isDigit_of_mem_toDigits {n : Nat} {c : Char} (h : c ∈ toDigits n) : c.isDigit = true := by
  induction n using Nat.strongRecOn with
  | ind n ih =>
    rw [toDigits] at h
    split at h
    · next hn => rw [List.mem_singleton.1 h]; exact isDigit_digitChar n hn
    · next hn =>
      rcases List.mem_append.1 h with h | h
      · exact ih (n / 10) (by omega) h
      · rw [List.mem_singleton.1 h]; exact isDigit_digitChar _ (by omega)

theorem toDigits_ne_nil (n : Nat) : toDigits n ≠ [] := by
  rw [toDigits]; split <;> simp

/-- Only zero is written with a zero in front. -/
theorem toDigits_of_head?_zero {n : Nat} (h : (toDigits n).head? = some '0') : toDigits n = ['0'] := by
  induction n using Nat.strongRecOn with
  | ind n ih =>
    rw [toDigits] at h ⊢
    split at h
    · next hn => rw [if_pos hn, Option.some.inj h]
    · next hn =>
      have hfront : (toDigits (n / 10)).head? = some '0' := by
        obtain ⟨c, more, hc⟩ := List.exists_cons_of_ne_nil (toDigits_ne_nil (n / 10))
        rw [hc] at h ⊢
        exact h
      have hzero := congrArg ofDigits (ih (n / 10) (by omega) hfront)
      rw [ofDigits_toDigits] at hzero
      have : n / 10 = 0 := hzero
      omega

theorem toNat_lt_of_isDigit {c : Char} (h : c.isDigit = true) : c.toNat < 128 := by
  simp only [Char.isDigit, Bool.and_eq_true, decide_eq_true_eq] at h
  exact Nat.lt_of_le_of_lt (UInt32.le_iff_toNat_le.1 h.2) (by decide)

theorem hexValue?_of_foldlM {digits : List Char} {start n : Nat}
    (h : digits.foldlM (fun n c => (hexValue? c).map (16 * n + ·)) start = some n) :
    ∀ c ∈ digits, (hexValue? c).isSome = true := by
  induction digits generalizing start with
  | nil => exact fun _ hc => by cases hc
  | cons d digits ih =>
    rw [List.foldlM_cons] at h
    obtain ⟨m, hm, hrest⟩ := Option.bind_eq_some_iff.1 h
    obtain ⟨v, hv, -⟩ := Option.map_eq_some_iff.1 hm
    rintro c (_ | ⟨_, hc⟩)
    · rw [hv]
      rfl
    · exact ih hrest c hc

/-- A number is read from hexadecimal digits alone. -/
theorem hexValue?_of_mem {digits : List Char} {n : Nat} (h : ofHex? digits = some n) :
    ∀ c ∈ digits, (hexValue? c).isSome = true := by
  rcases digits with _ | ⟨d, digits⟩
  · cases h
  · exact hexValue?_of_foldlM h

/-- A number that is not negative is written without a sign. -/
theorem intDigits_natCast (n : Nat) : intDigits n = toDigits n := by
  rw [intDigits, if_neg (by omega), Int.natAbs_natCast]

end StateScript.Text
