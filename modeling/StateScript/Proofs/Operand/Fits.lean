/-
What an operand can be. Whatever text an argument has, the value it is typed as has no key twice in an object
and at most 128 containers nested: 127 where the text is read as JSON, and 128 where it is read as a literal.
-/
import StateScript.Operand.Coercion
import StateScript.Proofs.Json.Fits

namespace StateScript

open Text

theorem Operand.toJson_of_json? {operand : Operand} {v : Json} (h : operand.json? = some v) : operand.toJson = v := by
  cases operand with
  | undefined => cases h
  | value json => exact Option.some.inj h

namespace Literal

section

variable {α : Type} {Q : α → Prop} {close : Char} {ended : Cause}
  {element : (text : List Char) → Except Failure (Taken α text)}
  (helement : ∀ {text : List Char} {taken : Taken α text}, element text = .ok taken → Q taken.value)

include helement

/-- What every element is that is read, all of a list are. -/
theorem forall_of_elements : ∀ (text : List Char) {taken : Taken (List α) text},
    elements close ended element text = .ok taken → ∀ a ∈ taken.value, Q a
  | text, taken, h => by
    rw [elements] at h
    obtain ⟨before, -, h⟩ := exists_of_bind_eq_ok h
    split at h
    · cases h
      exact List.forall_mem_nil _
    · obtain ⟨first, hfirst, h⟩ := exists_of_bind_eq_ok h
      obtain ⟨behind, -, h⟩ := exists_of_bind_eq_ok h
      split at h
      · next comma _ =>
        obtain ⟨more, hmore, h⟩ := exists_of_bind_eq_ok h
        cases h
        have hbefore := before.notLonger
        have hfirstshorter := first.shorter
        have hbehind := behind.notLonger
        have hcomma := comma.shorter
        exact List.forall_mem_cons.2 ⟨helement hfirst, forall_of_elements comma.rest hmore⟩
      · split at h
        · cases h
          exact List.forall_mem_singleton.2 (helement hfirst)
        · split at h <;> cases h
termination_by text => text.length
decreasing_by omega

end

theorem isContainer_of_keyword? {name : List Char} {operand : Operand} (h : keyword? name = some operand) :
    operand.toJson.isContainer = false := by
  unfold keyword? at h
  split_ifs at h <;> cases h <;> rfl

theorem isContainer_of_scalar {text : List Char} {taken : Taken Operand text} (h : scalar text = .ok taken) :
    taken.value.toJson.isContainer = false := by
  unfold scalar at h
  split at h
  · cases h
  · split at h
    · obtain ⟨string, -, rfl⟩ := exists_of_map_eq_ok h
      rfl
    · split at h
      · obtain ⟨number, -, rfl⟩ := exists_of_map_eq_ok h
        rfl
      · split at h
        · dsimp only at h
          split at h
          · next hword =>
            cases h
            exact isContainer_of_keyword? hword
          · cases h
        · cases h

/-- The members that have a value fit if the operands do. -/
theorem fits_definedMembers {budget : Nat} {entries : List (String × Operand)}
    (h : ∀ entry ∈ entries, entry.2.toJson.Fits budget) : (Json.object (definedMembers entries)).Fits (budget + 1) := by
  unfold definedMembers
  refine .object (Members.nodup_keys_ofList _).1 ?_
  intro m hm
  obtain ⟨entry, hentry, hvalue⟩ := List.mem_filterMap.1 ((Members.nodup_keys_ofList _).2 m hm)
  obtain ⟨v, hv, rfl⟩ := Option.map_eq_some_iff.1 hvalue
  rw [← Operand.toJson_of_json? hv]
  exact h entry hentry

/-- A member's operand is read as the operands are. -/
theorem exists_of_member {operand : (text : List Char) → Except Failure (Taken Operand text)} {text : List Char}
    {taken : Taken (String × Operand) text} (h : member operand text = .ok taken) :
    ∃ (rest : List Char) (value : Taken Operand rest), operand rest = .ok value ∧ taken.value.2 = value.value := by
  obtain ⟨name, -, h⟩ := exists_of_bind_eq_ok h
  obtain ⟨colon, -, h⟩ := exists_of_bind_eq_ok h
  obtain ⟨value, hvalue, h⟩ := exists_of_bind_eq_ok h
  cases h
  exact ⟨colon.rest, value, hvalue, rfl⟩

/-- An operand that is read fits as many containers as it may have. -/
theorem fits_of_operand (budget : Nat) {text : List Char} {taken : Taken Operand text}
    (h : operand budget text = .ok taken) : taken.value.toJson.Fits budget := by
  induction budget generalizing text with
  | zero =>
    rw [operand.eq_def] at h
    obtain ⟨before, -, h⟩ := exists_of_bind_eq_ok h
    split at h
    · cases h
    · cases h
    · obtain ⟨scalar, hscalar, rfl⟩ := exists_of_map_eq_ok h
      exact .scalar (isContainer_of_scalar hscalar) 0
  | succ budget ih =>
    rw [operand.eq_def] at h
    obtain ⟨before, -, h⟩ := exists_of_bind_eq_ok h
    split at h
    · obtain ⟨entries, hentries, h⟩ := exists_of_bind_eq_ok h
      cases h
      -- what is read under one key more than once is there once, and `undefined` not at all
      refine fits_definedMembers (forall_of_elements ?_ _ hentries)
      intro text taken hmember
      obtain ⟨rest, value, hvalue, heq⟩ := exists_of_member hmember
      rw [heq]
      exact ih hvalue
    · obtain ⟨items, hitems, h⟩ := exists_of_bind_eq_ok h
      cases h
      have hfits := forall_of_elements (Q := fun item => item.toJson.Fits budget) ih _ hitems
      exact .array (List.forall_mem_map.2 hfits)
    · obtain ⟨scalar, hscalar, rfl⟩ := exists_of_map_eq_ok h
      exact .scalar (isContainer_of_scalar hscalar) _

/-- The value of a literal in which at most `limit` containers nest. -/
def readWithin (limit : Nat) (text : List Char) : Except Failure Json := do
  let whole ← operand limit text
  match whole.value with
  | .undefined => .error ⟨.undefinedValue, whole.rest⟩
  | .value json =>
    let behind ← gap whole.rest
    if behind.rest = [] then .ok json else .error ⟨.trailingText, behind.rest⟩

/-- The reader of literals is the one that lets `maxDepth` containers nest. -/
theorem readWithin_maxDepth : readWithin maxDepth = read := rfl

theorem fits_of_readWithin {limit : Nat} {text : List Char} {v : Json} (h : readWithin limit text = .ok v) :
    v.Fits limit := by
  obtain ⟨whole, hwhole, h⟩ := exists_of_bind_eq_ok h
  have hfits := fits_of_operand limit hwhole
  split at h
  · cases h
  · next json hvalue =>
    obtain ⟨behind, -, h⟩ := exists_of_bind_eq_ok h
    split at h
    · cases h
      rwa [hvalue] at hfits
    · cases h

theorem fits_of_read {text : List Char} {v : Json} (h : read text = .ok v) : v.Fits maxDepth := by
  rw [← readWithin_maxDepth] at h
  exact fits_of_readWithin h

end Literal

namespace Operand

theorem fits_of_literal? {text : List Char} {v : Json} (h : literal? text = some v) : v.Fits 128 := by
  unfold literal? at h
  split at h
  · cases hread : Literal.read text with
    | error _ =>
      rw [hread] at h
      cases h
    | ok w =>
      rw [hread] at h
      cases h
      exact Literal.fits_of_read hread
  · cases h

theorem fits_ofTrimmed (text : List Char) : (ofTrimmed text).toJson.Fits 128 := by
  unfold ofTrimmed
  split
  · exact .null 128
  · split
    · next hjson => exact (Json.fits_of_read? hjson).mono (by decide)
    · split
      · next hliteral => exact fits_of_literal? hliteral
      · exact .scalar rfl 128

/-- The value that the text of an argument is typed as fits 128 containers. -/
theorem fits_ofText (text : List Char) : (ofText text).toJson.Fits 128 := fits_ofTrimmed _

end Operand

end StateScript
