/-
Pieces of a text between parentheses. A text is uncut where none of its commas separates arguments.
Cutting undoes joining: where uncut texts that leave nothing open are written one behind the other
with commas between them, the pieces are these texts, and blanks around them do not matter. And no text
loses anything when it is cut: it is its pieces with commas between them, and no argument is cut further.

At a separating comma nothing is open and nothing is escaped, so each piece is read from the same
beginning as the whole text. Blanks in front of a piece leave this beginning as it is, and blanks
behind it can only end an escape.
-/
import StateScript.Arguments

namespace StateScript.Arguments

open Text

/-! ## Blanks and what is open -/

namespace Nesting

/-- An open quote is one of the three marks. -/
def IsSound (n : Nesting) : Prop := ∀ q, n.quote = some q → isQuote q = true

theorem isSound_start : ({} : Nesting).IsSound := fun _ h => by cases h

theorem IsSound.step {n : Nesting} (h : n.IsSound) (c : Char) : (n.step c).IsSound := by
  intro q hq
  unfold Nesting.step at hq
  split at hq
  · exact h q hq
  · split at hq
    · exact h q hq
    · split at hq
      · split at hq
        · cases hq
        · exact h q hq
      · next hnone =>
        unfold openClose at hq
        split at hq
        · next hc => cases hq; exact hc
        · split at hq
          all_goals (repeat' split at hq) <;> exact h q hq

theorem past_nil (n : Nesting) : n.past [] = n := rfl

theorem past_cons (n : Nesting) (c : Char) (text : List Char) : n.past (c :: text) = (n.step c).past text := rfl

theorem past_append (n : Nesting) (s t : List Char) : n.past (s ++ t) = (n.past s).past t :=
  List.foldl_append ..

theorem IsSound.past {n : Nesting} (h : n.IsSound) (text : List Char) : (n.past text).IsSound := by
  induction text generalizing n with
  | nil => exact h
  | cons c text ih => exact ih (h.step c)

theorem openClose_of_isBlank (n : Nesting) {c : Char} (h : isBlank c = true) : n.openClose c = n := by
  have hne : ∀ {d : Char}, isBlank d = false → c ≠ d := ne_of_isBlank h
  have hopen : c ≠ '(' ∧ c ≠ '[' ∧ c ≠ '\x7b' := ⟨hne (by decide), hne (by decide), hne (by decide)⟩
  have hclose : c ≠ ')' ∧ c ≠ ']' ∧ c ≠ '\x7d' := ⟨hne (by decide), hne (by decide), hne (by decide)⟩
  simp only [openClose, not_isQuote_of_isBlank h, hopen, hclose, if_false, Bool.false_eq_true]

/-- A blank ends an escape, and does nothing else. -/
theorem step_blank {n : Nesting} (hn : n.IsSound) {c : Char} (hc : isBlank c = true) :
    n.step c = { n with escaped := false } := by
  unfold step
  split
  · rfl
  · next he =>
    have hself : n = { n with escaped := false } := by
      obtain ⟨escaped, _, _, _, _⟩ := n
      cases escaped
      · rfl
      · exact absurd rfl he
    rw [if_neg (ne_of_isBlank hc (by decide))]
    split
    · next q hquote =>
      have hcq : c ≠ q := by
        rintro rfl
        have := hn c hquote
        rw [not_isQuote_of_isBlank hc] at this
        cases this
      rw [if_neg hcq]
      exact hself
    · rw [openClose_of_isBlank n hc]
      exact hself

theorem past_blanks {n : Nesting} (hn : n.IsSound) (he : n.escaped = false) {blanks : List Char}
    (h : ∀ c ∈ blanks, isBlank c = true) : n.past blanks = n := by
  induction blanks with
  | nil => rfl
  | cons c blanks ih =>
    have hstep : n.step c = n := by
      rw [step_blank hn (h c List.mem_cons_self), ← he]
    rw [past_cons, hstep]
    exact ih fun d hd => h d (List.mem_cons_of_mem _ hd)

theorem isClosed_past_blanks {n : Nesting} (hn : n.IsSound) {blanks : List Char}
    (h : ∀ c ∈ blanks, isBlank c = true) : (n.past blanks).isClosed = n.isClosed := by
  induction blanks generalizing n with
  | nil => rfl
  | cons c blanks ih =>
    rw [past_cons, ih (hn.step c) fun d hd => h d (List.mem_cons_of_mem _ hd), step_blank hn (h c List.mem_cons_self)]
    rfl

/-- At a separating comma nothing is open and nothing is escaped. -/
theorem atComma_iff {n : Nesting} : n.atComma = true ↔ n = {} := by
  constructor
  · intro h
    obtain ⟨escaped, quote, parens, brackets, braces⟩ := n
    simp only [atComma, isClosed, Bool.and_eq_true, Bool.not_eq_true', decide_eq_true_eq] at h
    obtain ⟨rfl, rfl, rfl, rfl, rfl⟩ := h
    rfl
  · rintro rfl
    rfl

end Nesting

/-! ## Backslashes at the end -/

/-- How many backslashes a text ends in. -/
def trailingBackslashes (text : List Char) : Nat := (text.reverse.takeWhile (· = '\\')).length

theorem trailingBackslashes_concat (text : List Char) (c : Char) :
    trailingBackslashes (text ++ [c]) = if c = '\\' then trailingBackslashes text + 1 else 0 := by
  unfold trailingBackslashes
  rw [List.reverse_append, List.reverse_singleton, List.singleton_append, List.takeWhile_cons]
  by_cases hc : c = '\\' <;> simp [hc]

theorem Nesting.escaped_step (n : Nesting) (c : Char) : (n.step c).escaped = (!n.escaped && c = '\\') := by
  unfold Nesting.step
  split
  · next he => rw [he]; rfl
  · next he =>
    rw [Bool.not_eq_true] at he
    split
    · next hc => simp [he, hc]
    · next hc =>
      rw [decide_eq_false hc, Bool.and_false]
      split
      · split <;> exact he
      · unfold openClose
        (repeat' split) <;> exact he

/-- The end of a text is escaped just when it ends in an odd number of backslashes. -/
theorem escaped_past_iff (text : List Char) :
    (({} : Nesting).past text).escaped = true ↔ trailingBackslashes text % 2 = 1 := by
  rw [← List.reverse_reverse text]
  induction text.reverse with
  | nil => decide
  | cons c back ih =>
    rw [List.reverse_cons, trailingBackslashes_concat, Nesting.past_append, Nesting.past_cons, Nesting.past_nil,
      Nesting.escaped_step, Bool.and_eq_true, Bool.not_eq_true', decide_eq_true_eq]
    by_cases hc : c = '\\'
    · rw [if_pos hc, ← Bool.not_eq_true, ih]
      constructor
      · rintro ⟨h, -⟩
        omega
      · intro h
        exact ⟨by omega, hc⟩
    · simp [hc]

/-! ## Uncut texts -/

/-- No comma of the text separates arguments, where `n` is open before it. -/
def Uncut (n : Nesting) (text : List Char) : Prop := pieces n text = [text]

theorem uncut_nil (n : Nesting) : Uncut n [] := rfl

theorem uncut_cons_iff {n : Nesting} {c : Char} {text : List Char} :
    Uncut n (c :: text) ↔ ¬ (c = ',' ∧ n.atComma = true) ∧ Uncut (n.step c) text := by
  unfold Uncut
  rw [pieces]
  split
  · next h => simp [h]
  · next h =>
    have hne := pieces_ne_nil (n.step c) text
    rcases hp : pieces (n.step c) text with _ | ⟨p, ps⟩
    · exact absurd hp hne
    · simp [h]

theorem uncut_append_iff {n : Nesting} {s t : List Char} :
    Uncut n (s ++ t) ↔ Uncut n s ∧ Uncut (n.past s) t := by
  induction s generalizing n with
  | nil => exact ⟨fun h => ⟨uncut_nil n, h⟩, And.right⟩
  | cons c s ih => rw [List.cons_append, uncut_cons_iff, ih, uncut_cons_iff, and_assoc, Nesting.past_cons]

/-- A text is uncut, or there is a first comma that separates arguments. -/
theorem uncut_or_comma (n : Nesting) (body : List Char) :
    Uncut n body ∨ ∃ piece rest, body = piece ++ ',' :: rest ∧ Uncut n piece ∧ n.past piece = {} := by
  induction body generalizing n with
  | nil => exact .inl (uncut_nil n)
  | cons c body ih =>
    by_cases hc : c = ',' ∧ n.atComma = true
    · exact .inr ⟨[], body, by rw [hc.1, List.nil_append], uncut_nil n, Nesting.atComma_iff.1 hc.2⟩
    · rcases ih (n.step c) with h | ⟨piece, rest, rfl, h, hpast⟩
      · exact .inl (uncut_cons_iff.2 ⟨hc, h⟩)
      · exact .inr ⟨c :: piece, rest, rfl, uncut_cons_iff.2 ⟨hc, h⟩, hpast⟩

theorem uncut_iff {n : Nesting} {text : List Char} :
    Uncut n text ↔ ∀ front rest, text = front ++ ',' :: rest → n.past front ≠ {} := by
  constructor
  · rintro h front rest rfl hpast
    obtain ⟨-, hrest⟩ := uncut_append_iff.1 h
    rw [hpast, uncut_cons_iff] at hrest
    exact hrest.1 ⟨rfl, rfl⟩
  · intro h
    rcases uncut_or_comma n text with huncut | ⟨piece, rest, htext, -, hpast⟩
    · exact huncut
    · exact absurd hpast (h piece rest htext)

/-- The first separating comma cuts off the uncut text before it. -/
theorem pieces_append_comma {n : Nesting} {piece : List Char} (h : Uncut n piece) (hpast : n.past piece = {})
    (rest : List Char) : pieces n (piece ++ ',' :: rest) = piece :: pieces {} rest := by
  induction piece generalizing n with
  | nil =>
    obtain rfl : n = {} := hpast
    rfl
  | cons c piece ih =>
    obtain ⟨hc, h⟩ := uncut_cons_iff.1 h
    rw [List.cons_append, pieces, if_neg hc, ih h hpast]
    rfl

/-- Of the pieces, all but the last end where nothing is open, the last ends as the text does, and none is
cut further. -/
theorem exists_pieces (body : List Char) : ∃ (firsts : List (List Char)) (last : List Char),
    pieces {} body = firsts ++ [last] ∧ (∀ piece ∈ firsts, Uncut {} piece ∧ ({} : Nesting).past piece = {}) ∧
      Uncut {} last ∧ ({} : Nesting).past last = ({} : Nesting).past body := by
  rcases uncut_or_comma {} body with huncut | ⟨piece, rest, hbody, huncut, hpast⟩
  · exact ⟨[], body, huncut, List.forall_mem_nil _, huncut, rfl⟩
  · obtain ⟨firsts, last, hpieces, hfirsts, hlast, hlastpast⟩ := exists_pieces rest
    refine ⟨piece :: firsts, last, ?_, List.forall_mem_cons.2 ⟨⟨huncut, hpast⟩, hfirsts⟩, hlast, ?_⟩
    · rw [hbody, pieces_append_comma huncut hpast, hpieces]
      rfl
    · rw [hlastpast, hbody, Nesting.past_append, hpast]
      rfl
termination_by body.length
decreasing_by
  rw [hbody, List.length_append, List.length_cons]
  omega

/-! ## Arguments -/

theorem split_of_uncut {text : List Char} (h : Uncut {} text) :
    split text = if trim text = [] then [] else [trim text] := by
  rw [split, h]
  rfl

theorem split_append_comma {piece : List Char} (h : Uncut {} piece) (hpast : ({} : Nesting).past piece = {})
    (rest : List Char) : split (piece ++ ',' :: rest) = trim piece :: split rest := by
  rw [split, pieces_append_comma h hpast]
  rcases hp : pieces {} rest with _ | ⟨p, ps⟩
  · exact absurd hp (pieces_ne_nil _ _)
  · rw [trimmed, split, hp]
    simp

theorem trimmed_concat (last : List Char) : ∀ firsts : List (List Char),
    trimmed (firsts ++ [last]) = firsts.map trim ++ if trim last = [] then [] else [trim last]
  | [] => rfl
  | [_] => rfl
  | piece :: next :: firsts => congrArg (trim piece :: ·) (trimmed_concat last (next :: firsts))

theorem trimmed_modifyHead {c : Char} (hc : isBlank c = true) : ∀ ps : List (List Char),
    trimmed (ps.modifyHead (c :: ·)) = trimmed ps
  | [] => rfl
  | [p] => by simp only [List.modifyHead, trimmed, trim_blank_cons hc]
  | p :: q :: ps => by simp only [List.modifyHead, trimmed, trim_blank_cons hc]

/-- A blank in front does not show in the arguments. -/
theorem split_blank_cons {c : Char} (hc : isBlank c = true) (text : List Char) : split (c :: text) = split text := by
  rw [split, pieces, if_neg fun h => ne_of_isBlank hc (by decide) h.1,
    Nesting.step_blank Nesting.isSound_start hc, trimmed_modifyHead hc]
  rfl

/-- A text that can stand as an argument: trimmed, uncut, and leaving nothing open. -/
structure IsArgument (text : List Char) : Prop where
  trimmed : trim text = text
  uncut : Uncut {} text
  closed : (({} : Nesting).past text).isClosed = true

/-- A piece that leaves nothing open is an argument when it is trimmed. -/
theorem isArgument_trim {piece : List Char} (h : Uncut {} piece)
    (hclosed : (({} : Nesting).past piece).isClosed = true) : IsArgument (trim piece) := by
  obtain ⟨before, behind, hpiece, hbefore, hbehind⟩ := exists_trim piece
  have hstart : ({} : Nesting).past before = {} := Nesting.past_blanks Nesting.isSound_start rfl hbefore
  rw [hpiece, List.append_assoc, uncut_append_iff, hstart, uncut_append_iff] at h
  rw [hpiece, List.append_assoc, Nesting.past_append, hstart, Nesting.past_append,
    Nesting.isClosed_past_blanks (Nesting.isSound_start.past _) hbehind] at hclosed
  exact ⟨trim_trim piece, h.2.1, hclosed⟩

/-- What a text that leaves nothing open is cut into are arguments. -/
theorem isArgument_of_mem_split {body argument : List Char} (hbalanced : isBalanced body = true)
    (h : argument ∈ split body) : IsArgument argument := by
  obtain ⟨firsts, last, hpieces, hfirsts, hlast, hpast⟩ := exists_pieces body
  rw [split, hpieces, trimmed_concat] at h
  rcases List.mem_append.1 h with h | h
  · obtain ⟨piece, hpiece, rfl⟩ := List.mem_map.1 h
    obtain ⟨huncut, hclosed⟩ := hfirsts piece hpiece
    exact isArgument_trim huncut (by rw [hclosed]; rfl)
  · split at h
    · cases h
    · rw [List.mem_singleton.1 h]
      exact isArgument_trim hlast (by rw [hpast]; exact hbalanced)

/-- The arguments with a comma and a blank between them are cut into the arguments again, and leave
nothing open, unless the last is empty or the comma behind another is escaped. -/
theorem split_intercalate : ∀ {arguments : List (List Char)}, (∀ a ∈ arguments, IsArgument a) →
    (∀ a ∈ arguments.dropLast, trailingBackslashes a % 2 ≠ 1) → arguments.getLast? ≠ some [] →
    split ([',', ' '].intercalate arguments) = arguments ∧ isBalanced ([',', ' '].intercalate arguments) = true
  | [], _, _, _ => ⟨rfl, rfl⟩
  | [a], harg, _, hlast => by
    have ha := harg a List.mem_cons_self
    have hne : a ≠ [] := fun h => hlast (by rw [h]; rfl)
    rw [List.intercalate_singleton, split_of_uncut ha.uncut, ha.trimmed, if_neg hne]
    exact ⟨rfl, ha.closed⟩
  | a :: b :: rest, harg, hback, hlast => by
    have ha := harg a List.mem_cons_self
    have hpast : ({} : Nesting).past a = {} := by
      refine Nesting.atComma_iff.1 ?_
      have hescaped : ¬ (({} : Nesting).past a).escaped = true := fun h =>
        hback a List.mem_cons_self ((escaped_past_iff a).1 h)
      rw [Nesting.atComma, ha.closed, Bool.eq_false_iff.2 hescaped]
      rfl
    obtain ⟨ih, ihclosed⟩ := @split_intercalate (b :: rest)
      (fun c hc => harg c (List.mem_cons_of_mem _ hc)) (fun c hc => hback c (List.mem_cons_of_mem _ hc)) hlast
    rw [List.intercalate_cons_cons, List.append_assoc]
    show split (a ++ ',' :: ' ' :: [',', ' '].intercalate (b :: rest)) = _ ∧
      isBalanced (a ++ ',' :: ' ' :: [',', ' '].intercalate (b :: rest)) = true
    constructor
    · rw [split_append_comma ha.uncut hpast, split_blank_cons (by decide), ih, ha.trimmed]
    · rw [isBalanced, Nesting.past_append, hpast]
      exact ihclosed

/-! ## Atomic arguments -/

/-- Split by itself, the text leaves nothing open and is its only argument, or has none where it is empty. -/
def IsAtomic (text : List Char) : Prop := splitBalanced? text = some (if text = [] then [] else [text])

theorem IsArgument.isAtomic {text : List Char} (h : IsArgument text) : IsAtomic text := by
  rw [IsAtomic, splitBalanced?, isBalanced, if_pos h.closed, split_of_uncut h.uncut, h.trimmed]

/-- A text is its pieces with commas between them, cut at all those commas at which nothing is open and at
no other. The arguments are the pieces trimmed, without a blank last one, and each is atomic, the last one if
the text is balanced. -/
theorem split_eq_pieces (body : List Char) : ∃ (firsts : List (List Char)) (last : List Char),
    body = [','].intercalate (firsts ++ [last]) ∧
    (∀ piece ∈ firsts, ({} : Nesting).past piece = {}) ∧
    (∀ piece ∈ firsts ++ [last], ∀ front rest, piece = front ++ ',' :: rest → ({} : Nesting).past front ≠ {}) ∧
    split body = firsts.map trim ++ (if trim last = [] then [] else [trim last]) ∧
    (∀ piece ∈ firsts, IsAtomic (trim piece)) ∧ (isBalanced body = true → IsAtomic (trim last)) := by
  obtain ⟨firsts, last, hpieces, hfirsts, hlast, hpast⟩ := exists_pieces body
  refine ⟨firsts, last, ?_, fun piece h => (hfirsts piece h).2, ?_, ?_, ?_, ?_⟩
  · rw [← hpieces, intercalate_pieces]
  · rw [List.forall_mem_append, List.forall_mem_singleton]
    exact ⟨fun piece h => uncut_iff.1 (hfirsts piece h).1, uncut_iff.1 hlast⟩
  · rw [split, hpieces, trimmed_concat]
  · intro piece h
    obtain ⟨huncut, hclosed⟩ := hfirsts piece h
    exact (isArgument_trim huncut (by rw [hclosed]; rfl)).isAtomic
  · intro hbalanced
    rw [isBalanced, ← hpast] at hbalanced
    exact (isArgument_trim hlast hbalanced).isAtomic

end StateScript.Arguments
