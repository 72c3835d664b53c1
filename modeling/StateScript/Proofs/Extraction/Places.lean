/-
Line and column tell a place. Whoever skips the line feeds and then the characters that a place counts comes
to the offset of the place, whatever characters the text has and wherever it stops; and of two places in a text
the one with the smaller offset has the smaller line, or the smaller column in the same line. So the skipped
calls of a text, each of them placed where its opening stands, are listed in the order of their lines and
columns.

Behind a piece of text the line has grown by the line feeds in it; where there are none the column has grown by
its characters, and where there is one the column no longer depends on where the piece began.
-/
import StateScript.Proofs.Extraction.Account
import StateScript.Proofs.Extraction.Lines

namespace StateScript

open Text

namespace Text.Position

/-- The offset that one comes to by skipping so many line feeds and then so many characters. -/
def reach? : (line column : Nat) → (text : List Char) → Option Nat
  | 0, 0, _ => some 0
  | _, _, [] => none
  | 0, column + 1, c :: text => (reach? 0 column text).map (c.utf8Size + ·)
  | line + 1, column, c :: text => (reach? (if c = '\n' then line else line + 1) column text).map (c.utf8Size + ·)

/-- The line of the one place comes first, or its column does in the same line. -/
def Before (a b : Position) : Prop := a.line < b.line ∨ a.line = b.line ∧ a.column < b.column

instance (a b : Position) : Decidable (a.Before b) := inferInstanceAs (Decidable (_ ∨ _))

/-! ## Lines and columns behind a piece of text -/

theorem line_past_start (piece : List Char) : (start.past piece).line = piece.count '\n' := by
  rw [line_past]
  exact Nat.zero_add _

/-- Behind a line feed the column does not depend on what stands before it. -/
theorem column_past_line (place : Position) (piece : List Char) :
    (place.past ('\n' :: piece)).column = (start.past piece).column := by
  have hbelow : place.advance '\n' = start.below (place.line + 1) (place.offset + '\n'.utf8Size) := by
    unfold advance below
    rw [if_pos rfl]
    simp only [start, Nat.zero_add]
  show ((place.advance '\n').past piece).column = _
  rw [hbelow, past_below]
  rfl

theorem column_past_of_mem {piece : List Char} (h : '\n' ∈ piece) (a b : Position) :
    (a.past piece).column = (b.past piece).column := by
  induction piece generalizing a b with
  | nil => cases h
  | cons c piece ih =>
    by_cases hc : c = '\n'
    · rw [hc, column_past_line, column_past_line]
    · have hpiece : '\n' ∈ piece := (List.mem_cons.1 h).resolve_left (Ne.symm hc)
      exact ih hpiece (a.advance c) (b.advance c)

/-- In a line the column grows by the characters. -/
theorem column_past_of_not_mem {piece : List Char} (h : '\n' ∉ piece) (place : Position) :
    (place.past piece).column = place.column + piece.length := by
  induction piece generalizing place with
  | nil => rfl
  | cons c piece ih =>
    obtain ⟨hc, hpiece⟩ := List.ne_and_not_mem_of_not_mem_cons h
    show ((place.advance c).past piece).column = _
    rw [ih hpiece, advance, if_neg (Ne.symm hc), List.length_cons, Nat.add_right_comm]
    rfl

/-- The column behind a piece of text is the number of characters behind its last line feed. -/
theorem column_past_start (piece : List Char) :
    (start.past piece).column = (piece.reverse.takeWhile (· ≠ '\n')).length := by
  obtain ⟨back, rfl⟩ : ∃ back, piece = back.reverse := ⟨piece.reverse, (List.reverse_reverse piece).symm⟩
  rw [List.reverse_reverse]
  induction back with
  | nil => rfl
  | cons c back ih =>
    rw [List.reverse_cons, past_append]
    show ((start.past back.reverse).advance c).column = _
    by_cases hc : c = '\n'
    · rw [advance, if_pos hc, List.takeWhile_cons_of_neg (by simpa using hc)]
      rfl
    · rw [advance, if_neg hc, List.takeWhile_cons_of_pos (by simpa using hc), List.length_cons, ← ih]

/-! ## From a place to its offset -/

/-- From the start of a text the place behind each of its fronts is reached. -/
theorem reach?_past_start (front rest : List Char) :
    reach? (start.past front).line (start.past front).column (front ++ rest) = some (byteCount front) := by
  induction front with
  | nil => cases rest <;> rfl
  | cons c front ih =>
    rw [line_past_start] at ih ⊢
    rw [List.cons_append, byteCount_cons]
    by_cases hc : c = '\n'
    · subst hc
      rw [column_past_line, List.count_cons_self, reach?, if_pos rfl, ih, Option.map_some]
    · rw [List.count_cons_of_ne hc]
      by_cases hmem : '\n' ∈ front
      · -- the column is that behind the last line feed, which is still to come
        obtain ⟨n, hn⟩ : ∃ n, front.count '\n' = n + 1 :=
          Nat.exists_eq_add_one.2 (List.count_pos_iff.2 hmem)
        have hcolumn : (start.past (c :: front)).column = (start.past front).column := column_past_of_mem hmem _ _
        rw [hn] at ih ⊢
        rw [hcolumn, reach?, if_neg hc, ih, Option.map_some]
      · have hcolumn : (start.past (c :: front)).column = front.length + 1 := by
          rw [column_past_of_not_mem (by simpa [Ne.symm hc] using hmem)]
          exact Nat.zero_add _
        have hcolumn' : (start.past front).column = front.length := by
          rw [column_past_of_not_mem hmem]
          exact Nat.zero_add _
        rw [hcolumn', List.count_eq_zero.2 hmem] at ih
        rw [hcolumn, List.count_eq_zero.2 hmem, reach?, ih, Option.map_some]

/-! ## The order of places -/

/-- A place comes before the one behind a further piece of text. -/
theorem before_past (place : Position) {piece : List Char} (h : piece ≠ []) : place.Before (place.past piece) := by
  unfold Before
  rw [line_past]
  by_cases hmem : '\n' ∈ piece
  · have := List.count_pos_iff.2 hmem
    omega
  · rw [column_past_of_not_mem hmem, List.count_eq_zero.2 hmem]
    have := List.length_pos_iff.2 h
    omega

theorem locate?_byteCount (front rest : List Char) :
    locate? (front ++ rest) (byteCount front) = some (start.past front) := by
  rw [locate?, splitBytes?_byteCount, Option.map_some]

theorem locate?_eq_some {text : List Char} {offset : Nat} {place : Position} (h : locate? text offset = some place) :
    ∃ front rest, text = front ++ rest ∧ byteCount front = offset ∧ place = start.past front := by
  obtain ⟨⟨front, rest⟩, hsplit, rfl⟩ := Option.map_eq_some_iff.1 h
  obtain ⟨htext, hcount⟩ := splitBytes?_eq_some hsplit
  exact ⟨front, rest, htext, hcount, rfl⟩

/-- Of two fronts of a text the one of fewer bytes is a front of the other. -/
theorem exists_piece_of_byteCount_lt {front rest front' rest' : List Char} (h : front ++ rest = front' ++ rest')
    (hlt : byteCount front < byteCount front') : ∃ piece, piece ≠ [] ∧ front' = front ++ piece := by
  rcases List.append_eq_append_iff.1 h with ⟨piece, hfront', -⟩ | ⟨piece, hfront, -⟩
  · refine ⟨piece, ?_, hfront'⟩
    rintro rfl
    rw [hfront', List.append_nil] at hlt
    exact Nat.lt_irrefl _ hlt
  · rw [hfront, byteCount_append] at hlt
    omega

/-- Places in a text are in the order of their offsets. -/
theorem before_of_locate? {text : List Char} {m n : Nat} {a b : Position} (ha : locate? text m = some a)
    (hb : locate? text n = some b) (h : m < n) : a.Before b := by
  obtain ⟨front, rest, htext, rfl, rfl⟩ := locate?_eq_some ha
  obtain ⟨front', rest', htext', rfl, rfl⟩ := locate?_eq_some hb
  obtain ⟨piece, hpiece, rfl⟩ := exists_piece_of_byteCount_lt (htext.symm.trans htext') h
  rw [past_append]
  exact before_past _ hpiece

end Text.Position

/-! ## Skipped calls -/

/-- The site starts where its opening stands. -/
theorem CallSite.IsAt.locate?_eq {site : CallSite} {front text : List Char} (h : site.IsAt front text) :
    Position.locate? text site.start.offset = some site.start := by
  obtain ⟨rest, rfl⟩ := h.1
  rw [h.offset_eq, h.2, List.append_assoc]
  exact Position.locate?_byteCount front _

theorem CallSite.start_of_skipped? {site : CallSite} {call : SkippedCall} (h : site.skipped? = some call) :
    call.start = site.start := by
  rcases site.command?_or_skipped? with ⟨_, -, hnone⟩ | ⟨reason, -, hsome⟩
  · rw [hnone] at h
    cases h
  · rw [hsome] at h
    cases h
    rfl

/-- Every offset at the edge of a character has a place: its line counts the line feeds before it, its column
the characters behind the last of them, and from the two the offset is got back. Of two offsets the smaller one
has the place that comes before; and the skipped calls of a text are placed at their offsets in it, each before
the next in line and column. -/
theorem Extraction.places_in_order (text : List Char) :
    (∀ front rest, text = front ++ rest → ∃ place, Position.locate? text (byteCount front) = some place ∧
      place = ⟨front.count '\n', (front.reverse.takeWhile (· ≠ '\n')).length, byteCount front⟩ ∧
      Position.reach? place.line place.column text = some (byteCount front)) ∧
    (∀ m n a b, Position.locate? text m = some a → Position.locate? text n = some b → m < n → a.Before b) ∧
    (∀ call ∈ (ofText text).skipped, Position.locate? text call.start.offset = some call.start) ∧
    (ofText text).skipped.Pairwise fun a b => a.start.Before b.start := by
  have hfinds : Finds Position.start text (callSites Position.start text) := finds_callSites Position.start text
  have hlocated : ∀ site ∈ callSites Position.start text,
      Position.locate? text site.start.offset = some site.start := by
    intro site hsite
    obtain ⟨front, hat⟩ := hfinds.exists_isAt [] rfl rfl site hsite
    exact hat.locate?_eq
  refine ⟨?_, fun m n a b => Position.before_of_locate?, ?_, ?_⟩
  · rintro front rest rfl
    refine ⟨_, Position.locate?_byteCount front rest, ?_, Position.reach?_past_start front rest⟩
    rw [← Position.line_past_start, ← Position.column_past_start]
    have hoffset : (Position.start.past front).offset = byteCount front :=
      (Position.offset_past _ _).trans (Nat.zero_add _)
    rw [← hoffset]
  · intro call hcall
    obtain ⟨site, hsite, hskipped⟩ := List.mem_filterMap.1 hcall
    rw [CallSite.start_of_skipped? hskipped]
    exact hlocated site hsite
  · show (List.filterMap _ _).Pairwise _
    rw [List.pairwise_filterMap]
    refine hfinds.pairwise_stop_le.imp_of_mem ?_
    intro a b ha hb hab call hcall call' hcall'
    rw [CallSite.start_of_skipped? hcall, CallSite.start_of_skipped? hcall']
    exact Position.before_of_locate? (hlocated a ha) (hlocated b hb) (Nat.lt_of_lt_of_le a.offset_lt_stop hab)

/-- Behind two bytes and a line feed, and behind four bytes: calls that are skipped in the second line, and an
offset right at the line feed. -/
theorem Extraction.places_in_order_wide :
    let text := "é\n𝄞_.set(a) _.add(b, [);".toList
    Position.locate? text 2 = some ⟨0, 1, 2⟩ ∧ Position.locate? text 7 = some ⟨1, 1, 7⟩ ∧
      Position.Before ⟨0, 1, 2⟩ ⟨1, 1, 7⟩ ∧
      (∃ place, Position.locate? text (byteCount ['é', '\n']) = some place ∧ place = ⟨1, 0, 3⟩ ∧
        Position.reach? place.line place.column text = some (byteCount ['é', '\n'])) ∧
      (ofText text).skipped = [⟨.set, .missingSemicolon, ⟨1, 1, 7⟩⟩, ⟨.add, .unbalancedArguments, ⟨1, 10, 16⟩⟩] ∧
      (ofText text).skipped.Pairwise fun a b => a.start.Before b.start := by
  intro text
  obtain ⟨hback, hbefore, -, hordered⟩ := places_in_order text
  have hfirst : Position.locate? text 2 = some ⟨0, 1, 2⟩ := by decide +kernel
  have hsecond : Position.locate? text 7 = some ⟨1, 1, 7⟩ := by decide +kernel
  have hskipped : (ofText text).skipped =
      [⟨.set, .missingSemicolon, ⟨1, 1, 7⟩⟩, ⟨.add, .unbalancedArguments, ⟨1, 10, 16⟩⟩] := by decide +kernel
  exact ⟨hfirst, hsecond, hbefore 2 7 _ _ hfirst hsecond (by decide), hback ['é', '\n'] _ (by rfl), hskipped, hordered⟩

end StateScript
