/-
How far a numeral goes. A text begins with a sign, digits, a fraction and an exponent, each of which may be
missing; the reader takes them off one by one. The four are one piece of the text, and whoever cuts this piece
out and reads it alone finds the same parts in it. So a number may be read from its cut as well as from the text.
-/
import StateScript.Proofs.Literal.Tracks

namespace StateScript

namespace Text

/-! ## Fronts of a text -/

theorem prefix_of_append_eq {text front rest left : List Char} (h : front ++ rest = text) (hleft : left <+: rest) :
    front ++ left <+: text :=
  h ▸ (List.prefix_append_right_inj front).2 hleft

theorem head?_of_isPrefix {front text : List Char} (h : front <+: text) {c : Char} (hc : front.head? = some c) :
    text.head? = some c := by
  obtain ⟨more, rfl⟩ := h
  obtain ⟨rest, rfl⟩ := List.head?_eq_some_iff.1 hc
  rfl

/-- A text begins with a character of a class, or it does not. -/
theorem exists_cons_or (p : Char → Bool) (text : List Char) :
    (∃ c rest, text = c :: rest ∧ p c = true) ∨ ∀ c, text.head? = some c → p c = false := by
  rcases text with _ | ⟨c, rest⟩
  · exact .inr fun _ hc => by cases hc
  · cases hc : p c with
    | true => exact .inl ⟨c, rest, rfl, hc⟩
    | false => exact .inr fun d hd => by cases hd; exact hc

/-- The longest front in a class is also the longest where less stands behind it. -/
theorem run_cut {p : Char → Bool} {text left : List Char} (h : left <+: (run p text).rest) :
    (run p ((run p text).value ++ left)).value = (run p text).value ∧
      (run p ((run p text).value ++ left)).rest = left := by
  have hstop : ∀ c, left.head? = some c → p c = false := by
    intro c hc
    have := List.head?_dropWhile_not p text
    rw [show (text.dropWhile p).head? = some c from head?_of_isPrefix h hc] at this
    simpa using this
  obtain ⟨_, hrun⟩ := run_append (eq_append_of_run p text).2 hstop
  rw [hrun]
  exact ⟨rfl, rfl⟩

end Text

namespace Literal

open Text
open Walk (isSign isPower convert)

variable {text rest left : List Char}

namespace Numeral

/-- The spelling of a fraction. -/
def pointText : Option (List Char) → List Char
  | some digits => '.' :: digits
  | none => []

/-- The spelling of an exponent. -/
def powerText : Option Exponent → List Char
  | some e => e.letter :: (e.sign.toList ++ e.digits)
  | none => []

/-- The parts of the numeral that a text begins with, all of which may be missing. -/
def front (text : List Char) : Numeral :=
  let sign := signPart text
  let whole := run Char.isDigit sign.rest
  let fraction := fractionPart whole.rest
  let exponent := exponentPart fraction.rest
  ⟨sign.value, whole.value, fraction.value, exponent.value⟩

/-- What stands behind them. -/
def behind (text : List Char) : List Char :=
  (exponentPart (fractionPart (run Char.isDigit (signPart text).rest).rest).rest).rest

theorem unsigned_eq (n : Numeral) : n.unsigned = n.whole ++ (pointText n.fraction ++ powerText n.exponent) := by
  obtain ⟨sign, whole, fraction, exponent⟩ := n
  cases fraction <;> cases exponent <;> simp [unsigned, pointText, powerText]

theorem unsigned_eq_nil_iff (n : Numeral) :
    n.unsigned = [] ↔ n.whole = [] ∧ n.fraction = none ∧ n.exponent = none := by
  obtain ⟨sign, whole, fraction, exponent⟩ := n
  rw [unsigned_eq]
  cases fraction <;> cases exponent <;> simp [pointText, powerText]

theorem take?_eq (text : List Char) : (take? text).map Taken.parts =
    if (front text).unsigned = [] then none else some (front text, behind text) := by
  unfold take?
  simp only [unsigned_eq_nil_iff]
  split
  · next h => exact (if_pos h).symm
  · next h => exact (if_neg h).symm

/-! ## Cutting a numeral out -/

theorem signPart_cons {c : Char} (h : isSign c = true) (text : List Char) :
    signPart (c :: text) = .first (some c) c text := by
  simp only [isSign, Bool.or_eq_true, beq_iff_eq] at h
  rcases h with rfl | rfl <;> rfl

theorem signPart_eq_nothing (h : ∀ c, text.head? = some c → isSign c = false) : signPart text = .nothing none text := by
  unfold signPart
  split
  · exact absurd (h '+' rfl) (by decide)
  · exact absurd (h '-' rfl) (by decide)
  · rfl

theorem toList_append_signPart (text : List Char) : (signPart text).value.toList ++ (signPart text).rest = text := by
  unfold signPart
  split <;> rfl

theorem signPart_cut {left : List Char} (h : left <+: (signPart text).rest) :
    (signPart ((signPart text).value.toList ++ left)).value = (signPart text).value ∧
      (signPart ((signPart text).value.toList ++ left)).rest = left := by
  rcases exists_cons_or isSign text with ⟨c, rest, rfl, hc⟩ | hnone
  · rw [signPart_cons hc]
    show (signPart (c :: left)).value = some c ∧ (signPart (c :: left)).rest = left
    rw [signPart_cons hc]
    exact ⟨rfl, rfl⟩
  · rw [signPart_eq_nothing hnone] at h ⊢
    show (signPart left).value = none ∧ (signPart left).rest = left
    rw [signPart_eq_nothing fun c hc => hnone c (head?_of_isPrefix h hc)]
    exact ⟨rfl, rfl⟩

theorem fractionPart_eq_nothing (h : ∀ c, text.head? = some c → (c == '.') = false) :
    fractionPart text = .nothing none text := by
  unfold fractionPart
  split
  · exact absurd (h '.' rfl) (by decide)
  · rfl

theorem pointText_append_fractionPart (text : List Char) :
    pointText (fractionPart text).value ++ (fractionPart text).rest = text := by
  unfold fractionPart
  split
  · next rest => exact congrArg ('.' :: ·) (eq_append_of_run Char.isDigit rest).1.symm
  · rfl

theorem fractionPart_cut {left : List Char} (h : left <+: (fractionPart text).rest) :
    (fractionPart (pointText (fractionPart text).value ++ left)).value = (fractionPart text).value ∧
      (fractionPart (pointText (fractionPart text).value ++ left)).rest = left := by
  rcases exists_cons_or (· == '.') text with ⟨c, rest, rfl, hc⟩ | hnone
  · obtain rfl : c = '.' := eq_of_beq hc
    have hdigits : left <+: (run Char.isDigit rest).rest := h
    exact ⟨congrArg some (run_cut hdigits).1, (run_cut hdigits).2⟩
  · rw [fractionPart_eq_nothing hnone] at h ⊢
    show (fractionPart left).value = none ∧ (fractionPart left).rest = left
    rw [fractionPart_eq_nothing fun c hc => hnone c (head?_of_isPrefix h hc)]
    exact ⟨rfl, rfl⟩

theorem exponentPart_cons {c : Char} (h : isPower c = true) (text : List Char) :
    (exponentPart (c :: text)).value = some ⟨c, (signPart text).value, (run Char.isDigit (signPart text).rest).value⟩ ∧
      (exponentPart (c :: text)).rest = (run Char.isDigit (signPart text).rest).rest := by
  have hc : c = 'e' ∨ c = 'E' := by simpa [isPower] using h
  rw [exponentPart, if_pos hc]
  exact ⟨rfl, rfl⟩

theorem exponentPart_eq_nothing (h : ∀ c, text.head? = some c → isPower c = false) :
    exponentPart text = .nothing none text := by
  rcases text with _ | ⟨c, text⟩
  · rfl
  · have hc := h c rfl
    rw [exponentPart, if_neg (by simpa [isPower] using hc)]

theorem powerText_append_exponentPart (text : List Char) :
    powerText (exponentPart text).value ++ (exponentPart text).rest = text := by
  rcases exists_cons_or isPower text with ⟨c, rest, rfl, hc⟩ | hnone
  · rw [(exponentPart_cons hc rest).1, (exponentPart_cons hc rest).2]
    show c :: ((signPart rest).value.toList ++ _ ++ _) = c :: rest
    rw [List.append_assoc, ← (eq_append_of_run Char.isDigit (signPart rest).rest).1, toList_append_signPart]
  · rw [exponentPart_eq_nothing hnone]
    rfl

theorem exponentPart_cut (text : List Char) :
    (exponentPart (powerText (exponentPart text).value)).value = (exponentPart text).value := by
  rcases exists_cons_or isPower text with ⟨c, rest, rfl, hc⟩ | hnone
  · have hdigits : (run Char.isDigit (signPart rest).rest).value <+: (signPart rest).rest :=
      ⟨_, (eq_append_of_run Char.isDigit (signPart rest).rest).1.symm⟩
    have hrun := @run_cut Char.isDigit (signPart rest).rest [] List.nil_prefix
    rw [List.append_nil] at hrun
    rw [(exponentPart_cons hc rest).1, powerText, (exponentPart_cons hc _).1, (signPart_cut hdigits).1,
      (signPart_cut hdigits).2, hrun.1]
  · rw [exponentPart_eq_nothing hnone]
    rfl

/-- The parts of a numeral that is cut out of a text are those that it has in the text. -/
theorem front_cut (text : List Char) : front ((front text).sign.toList ++ (front text).unsigned) = front text := by
  have hpower := powerText_append_exponentPart (fractionPart (run Char.isDigit (signPart text).rest).rest).rest
  have hpoint := prefix_of_append_eq (pointText_append_fractionPart (run Char.isDigit (signPart text).rest).rest)
    ⟨_, hpower⟩
  have hwhole := prefix_of_append_eq (eq_append_of_run Char.isDigit (signPart text).rest).1.symm hpoint
  -- each part is read again up to the next, which begins as it did in the text
  rw [unsigned_eq]
  unfold front
  dsimp only
  rw [(signPart_cut hwhole).1, (signPart_cut hwhole).2, (run_cut hpoint).1, (run_cut hpoint).2,
    (fractionPart_cut ⟨_, hpower⟩).1, (fractionPart_cut ⟨_, hpower⟩).2, exponentPart_cut]

theorem rest_signPart (text : List Char) : (signPart text).rest = (front text).unsigned ++ behind text := by
  rw [unsigned_eq]
  show _ = (run _ _).value ++ (pointText (fractionPart _).value ++ powerText (exponentPart _).value) ++
    (exponentPart _).rest
  rw [List.append_assoc, List.append_assoc, powerText_append_exponentPart, pointText_append_fractionPart,
    ← (eq_append_of_run Char.isDigit _).1]

/-- The sign, the rest of the numeral and what stands behind it make up the text. -/
theorem front_append_behind (text : List Char) :
    (front text).sign.toList ++ (front text).unsigned ++ behind text = text := by
  rw [List.append_assoc, ← rest_signPart]
  exact toList_append_signPart text

end Numeral

theorem number_eq (text : List Char) : (number text).map Taken.parts =
    if (Numeral.front text).unsigned = [] ∨ (Numeral.front text).unsigned = ['.'] then .error ⟨.emptyNumber, text⟩
    else
      match (Numeral.front text).number with
      | .ok n => .ok (n, Numeral.behind text)
      | .error cause => .error ⟨cause, text⟩ := by
  have htake := Numeral.take?_eq text
  unfold number
  by_cases hempty : (Numeral.front text).unsigned = []
  · rw [if_pos hempty] at htake
    rw [Option.map_eq_none_iff.1 htake, if_pos (.inl hempty)]
    rfl
  · rw [if_neg hempty] at htake
    obtain ⟨taken, htaken, hparts⟩ := Option.map_eq_some_iff.1 htake
    have hvalue : taken.value = Numeral.front text := congrArg Prod.fst hparts
    have hrest : taken.rest = Numeral.behind text := congrArg Prod.snd hparts
    simp only [htaken, hvalue, hempty, false_or]
    by_cases hpoint : (Numeral.front text).unsigned = ['.']
    · rw [if_pos hpoint, if_pos hpoint]
      rfl
    · rw [if_neg hpoint, if_neg hpoint, ← hrest]
      cases (Numeral.front text).number <;> rfl

theorem convert_cut (text : List Char) (h : (Numeral.front text).unsigned ≠ []) :
    convert ((Numeral.front text).sign.toList ++ (Numeral.front text).unsigned) = (Numeral.front text).number := by
  have htake := Numeral.take?_eq ((Numeral.front text).sign.toList ++ (Numeral.front text).unsigned)
  rw [Numeral.front_cut, if_neg h] at htake
  obtain ⟨taken, htaken, hparts⟩ := Option.map_eq_some_iff.1 htake
  unfold convert
  rw [htaken]
  exact congrArg (fun parts => parts.1.number) hparts

end Literal

end StateScript
