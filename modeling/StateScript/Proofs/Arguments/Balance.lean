/-
Texts that leave nothing open. Of a text between parentheses only those characters count that stand
outside of quotes and are not escaped. It leaves nothing open if no quote is open at its end and the
brackets of each kind match: every closing one closes an opening one before it, and every opening one is
closed behind it.

What is open is told by one count for each kind of brackets, which sees how many were opened and closed but
not in which order. So the counts tell the texts that leave nothing open from all others as long as no
closing bracket is stray, that is, comes where no bracket of its kind is open. Behind a stray one an opening
bracket makes the count even, and stays open.
-/
import StateScript.Proofs.Arguments.Pieces
import Mathlib.Data.List.Induction

namespace StateScript.Arguments

open Text

/-! ## Fronts of a text -/

/-- A front of two texts ends in the first or in the second. -/
theorem prefix_or_of_prefix_append {front a b : List Char} (h : front <+: a ++ b) :
    front <+: a ∨ ∃ more, front = a ++ more ∧ more <+: b := by
  rcases List.prefix_or_prefix_of_prefix h (List.prefix_append a b) with h' | ⟨more, rfl⟩
  · exact .inl h'
  · exact .inr ⟨more, rfl, (List.prefix_append_right_inj a).1 h⟩

/-- A character stands behind a front at the place that the length of the front tells. -/
theorem getElem?_of_eq_append {text front rest : List Char} {c : Char} (h : text = front ++ c :: rest) :
    front.length < text.length ∧ text[front.length]? = some c ∧ text.take front.length = front := by
  subst h
  simp

/-! ## Outside of quotes -/

/-- The quote that is open behind a character that is not escaped, where `quote` is open before it. -/
def toggled (quote : Option Char) (c : Char) : Option Char :=
  match quote with
  | some q => if c = q then none else some q
  | none => if isQuote c then some c else none

/-- The quote that is open behind a text, where `quote` is open before it. -/
def quoteBehind (quote : Option Char) : List Char → Option Char
  | [] => quote
  | c :: text =>
    if c = '\\' then
      match text with
      | [] => quote
      | _ :: text => quoteBehind quote text
    else quoteBehind (toggled quote c) text

theorem quoteBehind_cons {c : Char} (hc : c ≠ '\\') (quote : Option Char) (text : List Char) :
    quoteBehind quote (c :: text) = quoteBehind (toggled quote c) text := by
  rw [quoteBehind.eq_def]
  exact if_neg hc

/-- The characters of a text that are not escaped and stand outside of quotes, without the marks of the
quotes, where `quote` is open before the text. -/
def outside (quote : Option Char) : List Char → List Char
  | [] => []
  | c :: text =>
    if c = '\\' then
      match text with
      | [] => []
      | _ :: text => outside quote text
    else if quote = none ∧ isQuote c = false then c :: outside none text
    else outside (toggled quote c) text

/-! ## Brackets -/

/-- The three kinds of brackets. -/
inductive Bracket where
  | round
  | square
  | curly
  deriving DecidableEq, Repr

namespace Bracket

/-- The bracket that opens a group. -/
def opening : Bracket → Char
  | round => '('
  | square => '['
  | curly => '\x7b'

/-- The bracket that closes a group. -/
def closing : Bracket → Char
  | round => ')'
  | square => ']'
  | curly => '\x7d'

/-- Every closing bracket of the kind closes an opening one before it, and every opening one is closed. -/
inductive Matched (kind : Bracket) : List Char → Prop where
  | nil : Matched kind []
  | other {c : Char} {text : List Char} (hopening : c ≠ kind.opening) (hclosing : c ≠ kind.closing)
    (h : Matched kind text) : Matched kind (c :: text)
  | pair {inner text : List Char} (hinner : Matched kind inner) (h : Matched kind text) :
    Matched kind (kind.opening :: (inner ++ kind.closing :: text))

/-- A closing bracket of the kind stands where none is open: all opening ones before it are closed. -/
def Stray (kind : Bracket) (text : List Char) : Prop :=
  ∃ front rest, text = front ++ kind.closing :: rest ∧ kind.Matched front

variable {kind : Bracket}

theorem Matched.append {a b : List Char} (ha : kind.Matched a) (hb : kind.Matched b) : kind.Matched (a ++ b) := by
  induction ha with
  | nil => exact hb
  | other hopening hclosing _ ih => exact .other hopening hclosing ih
  | pair hinner _ _ ih =>
    rw [List.cons_append, List.append_assoc]
    exact .pair hinner ih

/-! ## Counting brackets -/

/-- How many more brackets of the kind are opened than closed. -/
def excess (kind : Bracket) (text : List Char) : Int := text.count kind.opening - text.count kind.closing

/-- What a character adds to the excess. -/
def weight (kind : Bracket) (c : Char) : Int :=
  (if c = kind.opening then 1 else 0) - (if c = kind.closing then 1 else 0)

@[simp] theorem excess_nil : kind.excess [] = 0 := rfl

@[simp] theorem excess_cons (c : Char) (text : List Char) :
    kind.excess (c :: text) = kind.weight c + kind.excess text := by
  have hcount : ∀ d : Char, ((c :: text).count d : Int) = text.count d + if c = d then 1 else 0 := by
    intro d
    rw [List.count_cons]
    by_cases h : c = d <;> simp [h]
  rw [excess, hcount, hcount, excess, weight]
  omega

@[simp] theorem excess_append (a b : List Char) : kind.excess (a ++ b) = kind.excess a + kind.excess b := by
  unfold excess
  rw [List.count_append, List.count_append]
  omega

@[simp] theorem weight_opening : kind.weight kind.opening = 1 := by cases kind <;> rfl

@[simp] theorem weight_closing : kind.weight kind.closing = -1 := by cases kind <;> rfl

theorem weight_of_ne {c : Char} (hopening : c ≠ kind.opening) (hclosing : c ≠ kind.closing) : kind.weight c = 0 := by
  rw [weight, if_neg hopening, if_neg hclosing, Int.sub_zero]

theorem weight_of_isQuote {c : Char} (hc : isQuote c = true) : kind.weight c = 0 := by
  have hbrackets : isQuote kind.opening = false ∧ isQuote kind.closing = false := by cases kind <;> decide
  refine weight_of_ne ?_ ?_ <;> rintro rfl
  · exact absurd (hbrackets.1.symm.trans hc) (by decide)
  · exact absurd (hbrackets.2.symm.trans hc) (by decide)

theorem natAbs_weight_le (c : Char) : (kind.weight c).natAbs ≤ 1 := by
  unfold weight
  split <;> split <;> decide

theorem Matched.excess_eq_zero {text : List Char} (h : kind.Matched text) : kind.excess text = 0 := by
  induction h with
  | nil => rfl
  | other hopening hclosing _ ih => rw [excess_cons, weight_of_ne hopening hclosing, ih]; rfl
  | pair _ _ ihinner ih => simp only [excess_cons, excess_append, weight_opening, weight_closing, ihinner, ih]; rfl

/-- In no front of matched brackets more are closed than opened. -/
theorem Matched.excess_nonneg {text front : List Char} (h : kind.Matched text) (hfront : front <+: text) :
    0 ≤ kind.excess front := by
  induction h generalizing front with
  | nil =>
    rw [List.prefix_nil.1 hfront]
    exact Int.le_refl 0
  | other hopening hclosing _ ih =>
    rcases List.prefix_cons_iff.1 hfront with rfl | ⟨more, rfl, hmore⟩
    · exact Int.le_refl 0
    · rw [excess_cons, weight_of_ne hopening hclosing]
      have := ih hmore
      omega
  | @pair inner text hinner _ ihinner ih =>
    rcases List.prefix_cons_iff.1 hfront with rfl | ⟨more, rfl, hmore⟩
    · exact Int.le_refl 0
    · rw [excess_cons, weight_opening]
      rcases prefix_or_of_prefix_append hmore with hmore | ⟨last, rfl, hlast⟩
      · have := ihinner hmore
        omega
      · rw [excess_append, hinner.excess_eq_zero]
        rcases List.prefix_cons_iff.1 hlast with rfl | ⟨behind, rfl, hbehind⟩
        · exact Int.one_nonneg
        · rw [excess_cons, weight_closing]
          have := ih hbehind
          omega

/-- So many closing brackets, a matched text before each of them, and a matched text behind the last. -/
inductive Closes (kind : Bracket) : Nat → List Char → Prop where
  | matched {text : List Char} (h : kind.Matched text) : Closes kind 0 text
  | closing {n : Nat} {inner text : List Char} (hinner : kind.Matched inner) (h : Closes kind n text) :
    Closes kind (n + 1) (inner ++ kind.closing :: text)

theorem Closes.prepend {n : Nat} {a text : List Char} (ha : kind.Matched a) (h : kind.Closes n text) :
    kind.Closes n (a ++ text) := by
  cases h with
  | matched h => exact .matched (ha.append h)
  | closing hinner h =>
    rw [← List.append_assoc]
    exact .closing (ha.append hinner) h

/-- An opening bracket takes the first of the closing ones. -/
theorem Closes.opening_cons {n : Nat} {text : List Char} (h : kind.Closes (n + 1) text) :
    kind.Closes n (kind.opening :: text) := by
  cases h with
  | @closing _ inner text hinner h =>
    have hpair : kind.Closes n ((kind.opening :: (inner ++ [kind.closing])) ++ text) :=
      h.prepend (.pair hinner .nil)
    rwa [List.cons_append, List.append_assoc] at hpair

/-- A text that closes `n` more brackets than it opens, and no front of it more than these, has its
brackets matched but for these. -/
theorem closes_of_excess {n : Nat} {text : List Char} (htext : kind.excess text + n = 0)
    (hfront : ∀ front, front <+: text → 0 ≤ kind.excess front + n) : kind.Closes n text := by
  induction text generalizing n with
  | nil =>
    obtain rfl : n = 0 := by simpa using htext
    exact .matched .nil
  | cons c text ih =>
    rw [excess_cons] at htext
    have hmore : ∀ front, front <+: text → 0 ≤ kind.weight c + kind.excess front + n := by
      intro front h
      have := hfront (c :: front) (List.cons_prefix_cons.2 ⟨rfl, h⟩)
      rwa [excess_cons] at this
    by_cases hopening : c = kind.opening
    · rw [hopening, weight_opening] at htext hmore
      rw [hopening]
      refine (ih (n := n + 1) (by omega) fun front h => ?_).opening_cons
      have := hmore front h
      omega
    · by_cases hclosing : c = kind.closing
      · rw [hclosing, weight_closing] at htext hmore
        rw [hclosing]
        -- the closing bracket alone is a front, so that it is one of the `n`
        have hn := hmore [] List.nil_prefix
        rw [excess_nil] at hn
        obtain ⟨m, rfl⟩ : ∃ m, n = m + 1 := Nat.exists_eq_succ_of_ne_zero (by omega)
        refine Closes.closing .nil (ih (n := m) (by omega) fun front h => ?_)
        have := hmore front h
        omega
      · rw [weight_of_ne hopening hclosing] at htext hmore
        have hsingle : kind.Matched [c] := .other hopening hclosing .nil
        refine (ih (n := n) (by omega) fun front h => ?_).prepend hsingle
        have := hmore front h
        omega

/-- The brackets match just when as many are closed as opened, and in no front more. -/
theorem matched_iff {text : List Char} :
    kind.Matched text ↔ kind.excess text = 0 ∧ ∀ front, front <+: text → 0 ≤ kind.excess front := by
  constructor
  · intro h
    exact ⟨h.excess_eq_zero, fun _ => h.excess_nonneg⟩
  · rintro ⟨htext, hfront⟩
    have hcloses : kind.Closes 0 text := closes_of_excess (by rw [htext]; rfl) fun front h => by
      rw [Int.natCast_zero, Int.add_zero]
      exact hfront front h
    cases hcloses with
    | matched h => exact h

/-! ## Stray brackets -/

theorem Matched.not_stray {text : List Char} (h : kind.Matched text) : ¬ kind.Stray text := by
  rintro ⟨front, rest, rfl, hfront⟩
  have hprefix : front ++ [kind.closing] <+: front ++ kind.closing :: rest :=
    (List.prefix_append_right_inj front).2 (List.prefix_append [kind.closing] rest)
  have := h.excess_nonneg hprefix
  rw [excess_append, hfront.excess_eq_zero, excess_cons, weight_closing, excess_nil] at this
  exact absurd this (by decide)

/-- Where no bracket is stray, in no front more are closed than opened. -/
theorem excess_nonneg_of_not_stray {text : List Char} (h : ¬ kind.Stray text) {front : List Char}
    (hfront : front <+: text) : 0 ≤ kind.excess front := by
  induction text using List.reverseRecOn generalizing front with
  | nil =>
    rw [List.prefix_nil.1 hfront]
    exact Int.le_refl 0
  | append_singleton text c ih =>
    have hnot : ¬ kind.Stray text := by
      rintro ⟨before, rest, rfl, hbefore⟩
      exact h ⟨before, rest ++ [c], by rw [List.append_assoc]; rfl, hbefore⟩
    rcases List.prefix_concat_iff.1 hfront with rfl | hfront
    · rw [excess_append, excess_cons, excess_nil, Int.add_zero]
      have htext := ih hnot List.prefix_rfl
      by_cases hc : c = kind.closing
      · -- the last bracket is not stray, so that something is open before it
        have hne : kind.excess text ≠ 0 := fun hzero =>
          h ⟨text, [], by rw [hc], matched_iff.2 ⟨hzero, fun _ => ih hnot⟩⟩
        rw [hc, weight_closing]
        omega
      · have : 0 ≤ kind.weight c := by
          rw [weight, if_neg hc]
          split <;> decide
        omega
    · exact ih hnot hfront

/-- Without stray brackets the counts tell whether the brackets match. -/
theorem matched_iff_of_not_stray {text : List Char} (h : ¬ kind.Stray text) :
    kind.Matched text ↔ text.count kind.opening = text.count kind.closing := by
  rw [matched_iff, and_iff_left fun front => excess_nonneg_of_not_stray h, excess]
  omega

end Bracket

/-! ## What the counts see -/

namespace Nesting

/-- The count of the open brackets of a kind. -/
def count (n : Nesting) : Bracket → Int
  | .round => n.parens
  | .square => n.brackets
  | .curly => n.braces

theorem isClosed_iff {n : Nesting} : n.isClosed = true ↔ n.quote = none ∧ ∀ kind, n.count kind = 0 := by
  rw [isClosed, decide_eq_true_eq]
  refine and_congr_right fun _ => ⟨?_, fun h => ⟨h .round, h .square, h .curly⟩⟩
  rintro ⟨hround, hsquare, hcurly⟩ (_ | _ | _)
  exacts [hround, hsquare, hcurly]

theorem count_openClose (n : Nesting) (kind : Bracket) {c : Char} (hc : isQuote c = false) :
    (n.openClose c).count kind = n.count kind + kind.weight c := by
  simp only [openClose, hc, Bool.false_eq_true, if_false]
  by_cases hbracket : c ∈ ['(', ')', '[', ']', '\x7b', '\x7d']
  · simp only [List.mem_cons, List.not_mem_nil, or_false] at hbracket
    rcases hbracket with rfl | rfl | rfl | rfl | rfl | rfl <;> cases kind <;>
      first | rfl | exact (Int.add_zero _).symm
  · simp only [List.mem_cons, List.not_mem_nil, or_false, not_or] at hbracket
    obtain ⟨h1, h2, h3, h4, h5, h6⟩ := hbracket
    simp only [h1, h2, h3, h4, h5, h6, if_false]
    rw [Bracket.weight_of_ne, Int.add_zero] <;> cases kind <;> assumption

theorem quote_openClose {n : Nesting} {c : Char} (hc : isQuote c = false) : (n.openClose c).quote = n.quote := by
  simp only [openClose, hc, Bool.false_eq_true, if_false]
  (repeat' split) <;> rfl

/-- What a character does that neither is escaped nor escapes the next. -/
theorem step_plain {n : Nesting} (he : n.escaped = false) {c : Char} (hc : c ≠ '\\') :
    (n.step c).escaped = false ∧ (n.step c).quote = toggled n.quote c ∧ ∀ kind, (n.step c).count kind =
      n.count kind + if n.quote = none ∧ isQuote c = false then kind.weight c else 0 := by
  refine ⟨by rw [escaped_step, decide_eq_false hc, Bool.and_false], ?_⟩
  rw [step, if_neg (by rw [he]; decide), if_neg hc]
  rcases hq : n.quote with _ | q
  · by_cases hmark : isQuote c = true
    · rw [openClose, if_pos hmark, toggled, if_pos hmark]
      exact ⟨rfl, fun kind => by cases kind <;> simp [count, hmark]⟩
    · rw [Bool.not_eq_true] at hmark
      refine ⟨?_, fun kind => ?_⟩
      · rw [toggled, if_neg (by rw [hmark]; decide), quote_openClose hmark, hq]
      · rw [if_pos ⟨rfl, hmark⟩, count_openClose n kind hmark]
  · simp only [toggled, reduceCtorEq, false_and, if_false, Int.add_zero]
    split
    · exact ⟨rfl, fun kind => by cases kind <;> rfl⟩
    · exact ⟨hq, fun _ => rfl⟩

/-- Outside of strings every bracket counts that is not escaped. -/
theorem count_step_outside {n : Nesting} (he : n.escaped = false) (hq : n.quote = none) {c : Char} (hc : c ≠ '\\')
    (kind : Bracket) : (n.step c).count kind = n.count kind + kind.weight c := by
  obtain ⟨-, -, hcount⟩ := step_plain he hc
  rw [hcount]
  by_cases hmark : isQuote c = true
  · rw [if_neg (by simp [hmark]), Bracket.weight_of_isQuote hmark]
  · rw [if_pos ⟨hq, Bool.not_eq_true _ ▸ hmark⟩]

/-- In a string no bracket counts. -/
theorem count_step_inside {n : Nesting} {q : Char} (hq : n.quote = some q) (c : Char) (kind : Bracket) :
    (n.step c).count kind = n.count kind := by
  unfold step
  simp only [hq]
  (repeat' split) <;> cases kind <;> rfl

theorem step_backslash {n : Nesting} (he : n.escaped = false) : n.step '\\' = { n with escaped := true } := by
  rw [step, if_neg (by rw [he]; decide), if_pos rfl]

/-- A backslash and the character that it escapes change nothing. -/
theorem past_escape {n : Nesting} (he : n.escaped = false) (d : Char) (text : List Char) :
    n.past ('\\' :: d :: text) = n.past text := by
  obtain ⟨_, quote, parens, brackets, braces⟩ := n
  cases he
  rfl

/-- What is open behind a text is told by the characters outside of quotes. -/
theorem past_eq {n : Nesting} (he : n.escaped = false) (text : List Char) :
    (n.past text).quote = quoteBehind n.quote text ∧
      ∀ kind, (n.past text).count kind = n.count kind + kind.excess (outside n.quote text) := by
  generalize hq : n.quote = quote
  fun_induction outside quote text generalizing n with
  | case1 quote => exact ⟨hq, fun kind => (Int.add_zero _).symm⟩
  | case2 quote =>
    rw [past_cons, step_backslash he]
    exact ⟨hq, fun kind => by cases kind <;> exact (Int.add_zero _).symm⟩
  | case3 quote d text ih =>
    rw [past_escape he]
    exact ih he hq
  | case4 quote c text hc houtside ih =>
    obtain ⟨he', hquote, hcount⟩ := step_plain he hc
    obtain ⟨rfl, hmark⟩ := houtside
    have hsame : toggled none c = none := by rw [toggled, if_neg (by rw [hmark]; decide)]
    rw [hq, hsame] at hquote
    obtain ⟨ihquote, ihcount⟩ := ih he' hquote
    rw [past_cons, quoteBehind_cons hc, hsame]
    refine ⟨ihquote, fun kind => ?_⟩
    rw [ihcount, hcount, if_pos ⟨hq, hmark⟩, Bracket.excess_cons, Int.add_assoc]
  | case5 quote c text hc hinside ih =>
    obtain ⟨he', hquote, hcount⟩ := step_plain he hc
    rw [hq] at hquote hcount
    obtain ⟨ihquote, ihcount⟩ := ih he' hquote
    rw [past_cons, quoteBehind_cons hc]
    refine ⟨ihquote, fun kind => ?_⟩
    rw [ihcount, hcount, if_neg hinside, Int.add_zero]

theorem past_start (text : List Char) : (({} : Nesting).past text).quote = quoteBehind none text ∧
    ∀ kind, (({} : Nesting).past text).count kind = kind.excess (outside none text) := by
  obtain ⟨hquote, hcount⟩ := @past_eq {} rfl text
  refine ⟨hquote, fun kind => (hcount kind).trans ?_⟩
  have hstart : ({} : Nesting).count kind = 0 := by cases kind <;> rfl
  rw [hstart, Int.zero_add]

/-! ## The width of the counts -/

/-- A character takes a count by one at most. -/
theorem natAbs_count_step_le (n : Nesting) (c : Char) (kind : Bracket) :
    ((n.step c).count kind).natAbs ≤ (n.count kind).natAbs + 1 := by
  by_cases he : n.escaped = true
  · rw [step, if_pos he]
    cases kind <;> exact Nat.le_succ _
  · rw [Bool.not_eq_true] at he
    by_cases hc : c = '\\'
    · rw [hc, step_backslash he]
      cases kind <;> exact Nat.le_succ _
    · obtain ⟨-, -, hcount⟩ := step_plain he hc
      have hweight := kind.natAbs_weight_le c
      rw [hcount]
      split <;> omega

theorem natAbs_count_past_le (n : Nesting) (text : List Char) (kind : Bracket) :
    ((n.past text).count kind).natAbs ≤ (n.count kind).natAbs + text.length := by
  induction text generalizing n with
  | nil => exact Nat.le_refl _
  | cons c text ih =>
    have hstep := n.natAbs_count_step_le c kind
    have hmore := ih (n.step c)
    rw [past_cons, List.length_cons]
    omega

/-- At every place of a text of fewer than 2^31 characters the counts are signed integers of 32 bits, so that
counters of this width hold them. -/
theorem toInt_ofInt_count_past {text front : List Char} (htext : text.length < 0x80000000) (hfront : front <+: text)
    (kind : Bracket) : (Int32.ofInt ((({} : Nesting).past front).count kind)).toInt =
      (({} : Nesting).past front).count kind := by
  have hlength := hfront.length_le
  have hstart : ({} : Nesting).count kind = 0 := by cases kind <;> rfl
  have hcount := ({} : Nesting).natAbs_count_past_le front kind
  rw [hstart] at hcount
  exact Int32.toInt_ofInt_of_le (by omega) (by omega)

end Nesting

/-! ## Texts that leave nothing open -/

/-- No quote is open behind the text, and outside of quotes its brackets match, each kind by itself. -/
def LeavesNothingOpen (body : List Char) : Prop :=
  quoteBehind none body = none ∧ ∀ kind : Bracket, kind.Matched (outside none body)

/-- A text is split when no quote is open behind it and as many brackets of each kind are closed as opened. -/
theorem isSome_splitBalanced?_iff (body : List Char) : (splitBalanced? body).isSome = true ↔
    quoteBehind none body = none ∧
      ∀ kind : Bracket, (outside none body).count kind.opening = (outside none body).count kind.closing := by
  obtain ⟨hquote, hcount⟩ := Nesting.past_start body
  rw [splitBalanced?, Option.isSome_ite, isBalanced, Nesting.isClosed_iff, hquote]
  refine and_congr_right fun _ => forall_congr' fun kind => ?_
  rw [hcount, Bracket.excess]
  omega

/-- Where no closing bracket is stray, a text is split if and only if it leaves nothing open. Where one is,
the text leaves something open or closes what is not open, and yet is split if the numbers are even. -/
theorem isSome_splitBalanced?_unless_stray (body : List Char) :
    ((∀ kind : Bracket, ¬ kind.Stray (outside none body)) →
      ((splitBalanced? body).isSome = true ↔ LeavesNothingOpen body)) ∧
    ((∃ kind : Bracket, kind.Stray (outside none body)) → ¬ LeavesNothingOpen body ∧
      ((splitBalanced? body).isSome = true ↔ quoteBehind none body = none ∧
        ∀ kind : Bracket, (outside none body).count kind.opening = (outside none body).count kind.closing)) := by
  constructor
  · intro hstray
    rw [isSome_splitBalanced?_iff, LeavesNothingOpen]
    exact and_congr_right fun _ => forall_congr' fun kind =>
      (Bracket.matched_iff_of_not_stray (hstray kind)).symm
  · rintro ⟨kind, hstray⟩
    exact ⟨fun h => (h.2 kind).not_stray hstray, isSome_splitBalanced?_iff body⟩

/-- A closing bracket that stands before its opening one is balanced by it. -/
theorem isSome_splitBalanced?_closing_first :
    ¬ ∀ body : List Char, (splitBalanced? body).isSome = true ↔ LeavesNothingOpen body := by
  intro h
  have hopen : LeavesNothingOpen [']', '['] := (h _).1 (by decide)
  exact (hopen.2 .square).not_stray ⟨[], ['['], rfl, .nil⟩

/-- A brace that stays open is told from the group in it, and a bracket behind a stray one is not. -/
theorem isSome_splitBalanced?_open_brace :
    let body := "'a)', \x7bfoo: [1, \\]2]".toList
    (∀ kind : Bracket, ¬ kind.Stray (outside none body)) ∧ ¬ LeavesNothingOpen body ∧
      ¬ LeavesNothingOpen [']', '['] := by
  intro body
  have hclosing : ∀ kind : Bracket, ∀ i < (outside none body).length, (outside none body)[i]? = some kind.closing →
      kind.excess ((outside none body).take i) ≠ 0 := by
    intro kind
    cases kind <;> decide +kernel
  have hstray : ∀ kind : Bracket, ¬ kind.Stray (outside none body) := by
    rintro kind ⟨front, rest, htext, hfront⟩
    obtain ⟨hi, hc, htake⟩ := getElem?_of_eq_append htext
    refine hclosing kind front.length hi hc ?_
    rw [htake, hfront.excess_eq_zero]
  refine ⟨hstray, fun h => ?_, ((isSome_splitBalanced?_unless_stray _).2 ⟨.square, [], ['['], rfl, .nil⟩).1⟩
  have hsome := ((isSome_splitBalanced?_unless_stray body).1 hstray).2 h
  exact absurd hsome (by decide +kernel)

end StateScript.Arguments
