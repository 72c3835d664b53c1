/-
How deep an operand nests. No literal is read as a value in which more than 128 containers nest, and a text
that would be read as such a value, if more might nest, is refused for being nested too deep. Whatever text
an argument has, the value it is typed as nests no deeper.

A limit only ever cuts a reading off: with a lower one a text is read as with a higher one, to the same value
or the same failure, or it is refused as too deep.
-/
import StateScript.Proofs.Operand.Fits

namespace StateScript

open Text

namespace Literal

/-! ## Readings cut off -/

/-- The first result is the second, or the reading was cut off where the containers nest too deep. -/
def CutOff {α : Type} (result whole : Except Failure α) : Prop :=
  result = whole ∨ ∃ unread, result = .error ⟨.tooDeep maxDepth, unread⟩

namespace CutOff

variable {α β : Type} {x y : Except Failure α}

theorem refl (x : Except Failure α) : CutOff x x := .inl rfl

theorem bind (h : CutOff x y) {f g : α → Except Failure β} (hnext : ∀ a, CutOff (f a) (g a)) :
    CutOff (x >>= f) (y >>= g) := by
  rcases h with rfl | ⟨unread, rfl⟩
  · cases x with
    | error _ => exact .refl _
    | ok a => exact hnext a
  · exact .inr ⟨unread, rfl⟩

end CutOff

section

variable {α : Type} {close : Char} {ended : Cause} {element other : (text : List Char) → Except Failure (Taken α text)}
  (helement : ∀ text, CutOff (element text) (other text))

include helement

theorem cutOff_elements : ∀ text : List Char,
    CutOff (elements close ended element text) (elements close ended other text)
  | text => by
    rw [elements, elements]
    refine (CutOff.refl _).bind fun before => ?_
    split
    · exact .refl _
    · refine (helement before.rest).bind fun first => (CutOff.refl _).bind fun behind => ?_
      split
      · next comma _ =>
        have hbefore := before.notLonger
        have hfirst := first.shorter
        have hbehind := behind.notLonger
        have hcomma := comma.shorter
        exact (cutOff_elements comma.rest).bind fun more => .refl _
      · exact .refl _
termination_by text => text.length
decreasing_by omega

end

theorem cutOff_member {operand other : (text : List Char) → Except Failure (Taken Operand text)}
    (h : ∀ text, CutOff (operand text) (other text)) (text : List Char) :
    CutOff (member operand text) (member other text) :=
  (CutOff.refl _).bind fun _ => (CutOff.refl _).bind fun colon => (h colon.rest).bind fun _ => .refl _

/-- A lower limit cuts the reading of an operand off, and changes nothing else. -/
theorem cutOff_operand {few many : Nat} (h : few ≤ many) (text : List Char) :
    CutOff (operand few text) (operand many text) := by
  induction few generalizing many text with
  | zero =>
    rw [operand.eq_def, operand.eq_def many]
    refine (CutOff.refl _).bind fun before => ?_
    split
    · exact .inr ⟨_, rfl⟩
    · exact .inr ⟨_, rfl⟩
    · exact .refl _
  | succ few ih =>
    obtain ⟨many, rfl⟩ := Nat.exists_eq_add_of_le' (Nat.one_le_of_lt h)
    have hinner : ∀ text, CutOff (operand few text) (operand many text) := ih (Nat.le_of_succ_le_succ h)
    rw [operand.eq_def, operand.eq_def (many + 1)]
    refine (CutOff.refl _).bind fun before => ?_
    split
    · next opened _ => exact (cutOff_elements (cutOff_member hinner) opened.rest).bind fun _ => .refl _
    · next opened _ _ => exact (cutOff_elements hinner opened.rest).bind fun _ => .refl _
    · exact .refl _

/-! ## Values that nest too deep -/

theorem cutOff_readWithin {few many : Nat} (h : few ≤ many) (text : List Char) :
    CutOff (readWithin few text) (readWithin many text) :=
  (cutOff_operand h text).bind fun _ => .refl _

/-- A text that holds a value deeper than 128 containers where more may nest is refused. -/
theorem read_eq_tooDeep {limit : Nat} {text : List Char} {v : Json} (h : readWithin limit text = .ok v)
    (hdepth : maxDepth < v.depth) : ∃ unread, read text = .error ⟨.tooDeep maxDepth, unread⟩ := by
  have hlimit : maxDepth ≤ limit := Nat.le_trans (Nat.le_of_lt hdepth) (fits_of_readWithin h).depth_le
  have hcutOff := cutOff_readWithin hlimit text
  rw [readWithin_maxDepth] at hcutOff
  rcases hcutOff with hsame | hcut
  · have hread : read text = .ok v := hsame.trans h
    exact absurd (fits_of_read hread).depth_le (Nat.not_le_of_lt hdepth)
  · exact hcut

end Literal

namespace Operand

/-- No literal is read as a value in which more than 128 containers nest; a text that holds such a value where
more may nest is refused for it; and no argument is typed as such a value. -/
theorem depth_ofText_le :
    (∀ (text : List Char) (v : Json), Literal.read text = .ok v → v.depth ≤ 128) ∧
    (∀ (limit : Nat) (text : List Char) (v : Json), Literal.readWithin limit text = .ok v → 128 < v.depth →
      ∃ unread, Literal.read text = .error ⟨.tooDeep 128, unread⟩) ∧
    ∀ raw : List Char, (ofText raw).toJson.depth ≤ 128 :=
  ⟨fun _ _ h => (Literal.fits_of_read h).depth_le, fun _ _ _ => Literal.read_eq_tooDeep,
    fun raw => (fits_ofText raw).depth_le⟩

/-- Of 129 nested arrays a text is refused that holds them where 129 may nest. -/
theorem depth_ofText_le_nested :
    let text := List.replicate 129 '[' ++ List.replicate 129 ']'
    (∃ v, Literal.readWithin 129 text = .ok v ∧ 128 < v.depth) ∧
      ∃ unread, Literal.read text = .error ⟨.tooDeep 128, unread⟩ := by
  intro text
  have hdepth : (Literal.readWithin 129 text).toOption.map Json.depth = some 129 := by decide +kernel
  cases hread : Literal.readWithin 129 text with
  | error failure =>
    rw [hread] at hdepth
    cases hdepth
  | ok v =>
    have hv : v.depth = 129 := by
      rw [hread] at hdepth
      exact Option.some.inj hdepth
    have hdeeper : 128 < v.depth := hv ▸ Nat.lt_succ_self 128
    exact ⟨⟨v, rfl, hdeeper⟩, depth_ofText_le.2.1 129 text v hread hdeeper⟩

end Operand

end StateScript
