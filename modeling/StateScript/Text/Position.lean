/-
Places in a text. A place is counted in three ways at once: the line, the column in characters, and
the offset in bytes of UTF-8, all from zero; only a line feed ends a line. `Position.locate?` finds
the place at a byte offset, if the offset is one of a character's edges.
-/

namespace StateScript.Text

/-- The length of a text in bytes of UTF-8. -/
def byteCount (text : List Char) : Nat := text.foldr (fun c n => c.utf8Size + n) 0

/-- The text cut after so many bytes: nothing when the text is shorter, or a character lies across
the cut. -/
def splitBytes? : Nat → List Char → Option (List Char × List Char)
  | 0, text => some ([], text)
  | _ + 1, [] => none
  | n + 1, c :: text =>
    if c.utf8Size ≤ n + 1 then
      (splitBytes? (n + 1 - c.utf8Size) text).map fun (front, rest) => (c :: front, rest)
    else none

/-- A place in a text. -/
structure Position where
  line : Nat
  column : Nat
  offset : Nat
  deriving DecidableEq, Repr

namespace Position

/-- The place where a text begins. -/
def start : Position := ⟨0, 0, 0⟩

/-- The place after one character more. -/
def advance (place : Position) (c : Char) : Position :=
  if c = '\n' then ⟨place.line + 1, 0, place.offset + c.utf8Size⟩
  else ⟨place.line, place.column + 1, place.offset + c.utf8Size⟩

/-- The place after a piece of text. -/
def past (place : Position) (piece : List Char) : Position := piece.foldl advance place

/-- The place at a byte offset of the text. -/
def locate? (text : List Char) (offset : Nat) : Option Position :=
  (splitBytes? offset text).map fun (front, _) => start.past front

/-- Line and column, the way a place is shown. -/
def display (place : Position) : String := s!"{place.line}:{place.column}"

end Position

/-! ## Bytes -/

@[simp] theorem byteCount_nil : byteCount [] = 0 := rfl

@[simp] theorem byteCount_cons (c : Char) (text : List Char) :
    byteCount (c :: text) = c.utf8Size + byteCount text := rfl

@[simp] theorem byteCount_append (s t : List Char) : byteCount (s ++ t) = byteCount s + byteCount t := by
  induction s with
  | nil => simp
  | cons c s ih => simp [ih, Nat.add_assoc]

/-- A cut text is whole again when its two parts are joined, and the first has the asked length. -/
theorem splitBytes?_eq_some {n : Nat} {text front rest : List Char}
    (h : splitBytes? n text = some (front, rest)) : text = front ++ rest ∧ byteCount front = n := by
  fun_induction splitBytes? n text generalizing front rest with
  | case1 text => cases h; exact ⟨rfl, rfl⟩
  | case2 => cases h
  | case3 n c text hc ih =>
    obtain ⟨⟨f, r⟩, hf, he⟩ := Option.map_eq_some_iff.1 h
    cases he
    obtain ⟨ht, hb⟩ := ih hf
    exact ⟨by simp [ht], by rw [byteCount_cons, hb]; omega⟩
  | case4 => cases h

/-- A text can be cut at the end of each of its fronts. -/
theorem splitBytes?_byteCount (front rest : List Char) :
    splitBytes? (byteCount front) (front ++ rest) = some (front, rest) := by
  induction front with
  | nil => cases rest <;> rfl
  | cons c front ih =>
    have hc : 0 < c.utf8Size := c.utf8Size_pos
    obtain ⟨n, hn⟩ : ∃ n, byteCount (c :: front) = n + 1 :=
      ⟨byteCount (c :: front) - 1, by rw [byteCount_cons]; omega⟩
    rw [byteCount_cons] at hn
    have hsub : n + 1 - c.utf8Size = byteCount front := by omega
    rw [byteCount_cons, hn, List.cons_append, splitBytes?, if_pos (by omega), hsub, ih]
    rfl

/-! ## Places -/

theorem Position.past_append (place : Position) (s t : List Char) :
    place.past (s ++ t) = (place.past s).past t := List.foldl_append ..

theorem Position.offset_past (place : Position) (piece : List Char) :
    (place.past piece).offset = place.offset + byteCount piece := by
  induction piece generalizing place with
  | nil => rfl
  | cons c piece ih =>
    have : (place.advance c).offset = place.offset + c.utf8Size := by
      unfold Position.advance; split <;> rfl
    rw [show place.past (c :: piece) = (place.advance c).past piece from rfl, ih, this, byteCount_cons]
    omega

end StateScript.Text
