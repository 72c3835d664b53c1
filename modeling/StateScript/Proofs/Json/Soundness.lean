/-
What the reader of JSON text accepts is spelled in the grammar: each of its parts takes a spelling off
the front of the text and gives what it denotes. A value read with a budget has at most as many
containers nested, those of its overwritten members included.
-/
import StateScript.Proofs.Json.Grammar
import Mathlib.Tactic.SplitIfs

namespace StateScript.Json.Reader

open Text Grammar

/-- What was taken off the front of the text is a spelling of the value. -/
def Covers {α : Type} {text : List Char} (R : α → List Char → Prop) (taken : Taken α text) : Prop :=
  ∃ front, text = front ++ taken.rest ∧ R taken.value front

theorem exists_of_mark? {c : Char} {text : List Char} {taken : Taken Unit text} (h : mark? c text = some taken) :
    ∃ before, text = before ++ c :: taken.rest ∧ Blank before := by
  obtain ⟨mark, hmark, rfl⟩ := Option.map_eq_some_iff.1 h
  obtain ⟨htext, hblank⟩ := eq_append_of_run isSpace text
  refine ⟨_, ?_, hblank⟩
  rw [Reached.after_rest, ← List.singleton_append, ← (eq_append_of_front? hmark).1]
  exact htext

/-! ## Strings -/

theorem exists_of_unit? {text : List Char} {taken : Taken Nat text} (h : unit? text = some taken) :
    ∃ digits, text = digits ++ taken.rest ∧ digits.length = 4 ∧ ofHex? digits = some taken.value := by
  unfold unit? at h
  split at h
  · next a b c d rest =>
    obtain ⟨n, hn, rfl⟩ := Option.map_eq_some_iff.1 h
    exact ⟨[a, b, c, d], rfl, rfl, hn⟩
  · cases h

theorem byNumber?_covers {text : List Char} {taken : Taken Char text} (h : byNumber? text = some taken) :
    Covers (fun c front => Escape c ('u' :: front)) taken := by
  obtain ⟨first, hfirst, h⟩ := Option.bind_eq_some_iff.1 h
  obtain ⟨high, htext, hhigh, hm⟩ := exists_of_unit? hfirst
  split at h
  · next hms =>
    obtain ⟨mark, hmark, h⟩ := Option.bind_eq_some_iff.1 h
    obtain ⟨second, hsecond, h⟩ := Option.bind_eq_some_iff.1 h
    obtain ⟨low, hrest, hlow, hn⟩ := exists_of_unit? hsecond
    split at h
    · next hns =>
      obtain ⟨c, hc, rfl⟩ := Option.map_eq_some_iff.1 h
      have hfront := eq_append_trans (eq_append_trans htext (eq_append_of_front? hmark).1) hrest
      rw [List.append_assoc high] at hfront
      exact ⟨_, hfront, .pair hhigh hlow hm hn hms hns (toNat_of_scalar? hc).symm⟩
    · cases h
  · obtain ⟨c, hc, rfl⟩ := Option.map_eq_some_iff.1 h
    exact ⟨high, htext, .unit hhigh (hm.trans (congrArg some (toNat_of_scalar? hc).symm))⟩

theorem mem_shortEscapes_of_named? {c d : Char} (h : named? c = some d) : (c, d) ∈ shortEscapes := by
  unfold named? at h
  split_ifs at h with hself hb hf hn hr ht
  · cases h
    rcases hself with rfl | rfl | rfl <;> decide
  all_goals
    subst c
    cases h
    decide

theorem escaped?_covers {text : List Char} {taken : Taken Char text} (h : escaped? text = some taken) :
    Covers Escape taken := by
  rcases text with _ | ⟨c, rest⟩
  · cases h
  · rw [escaped?] at h
    split at h
    · next hc =>
      obtain ⟨number, hnumber, rfl⟩ := Option.map_eq_some_iff.1 h
      obtain ⟨front, htext, hfront⟩ := byNumber?_covers hnumber
      subst hc
      exact ⟨'u' :: front, congrArg _ htext, hfront⟩
    · obtain ⟨d, hd, rfl⟩ := Option.map_eq_some_iff.1 h
      exact ⟨[c], rfl, .short (mem_shortEscapes_of_named? hd)⟩

/-- The characters of a string are spelled up to its closing quote. -/
theorem exists_of_stringBody? : ∀ (text : List Char) {taken : Taken (List Char) text},
    stringBody? text = some taken → ∃ body, text = body ++ '"' :: taken.rest ∧ Body taken.value body
  | [], _, h => by rw [stringBody?] at h; cases h
  | c :: rest, _, h => by
    rw [stringBody?] at h
    split at h
    · next hc =>
      cases h
      subst hc
      exact ⟨[], rfl, .nil⟩
    · next hquote =>
      split at h
      · next hback =>
        obtain ⟨d, hd, h⟩ := Option.bind_eq_some_iff.1 h
        obtain ⟨more, hmore, rfl⟩ := Option.map_eq_some_iff.1 h
        have hshorter := d.shorter
        obtain ⟨esc, hesc, he⟩ := escaped?_covers hd
        obtain ⟨body, hbody, hchars⟩ := exists_of_stringBody? d.rest hmore
        subst hback
        exact ⟨_, congrArg ('\\' :: ·) (eq_append_trans hesc hbody), .escape he hchars⟩
      · next hback =>
        split at h
        · cases h
        · next hcontrol =>
          obtain ⟨more, hmore, rfl⟩ := Option.map_eq_some_iff.1 h
          obtain ⟨body, hbody, hchars⟩ := exists_of_stringBody? rest hmore
          exact ⟨c :: body, congrArg _ hbody, .raw hquote hback hcontrol hchars⟩
termination_by text => text.length

/-! ## Numerals -/

theorem eq_append_of_minus (text : List Char) :
    text = (if (minus text).value then ['-'] else []) ++ (minus text).rest := by
  unfold minus
  split <;> rfl

theorem exists_of_fraction? {text : List Char} {fraction : Reached (List Char) text}
    (h : fraction? text = some fraction) : ∃ point, text = point ++ fraction.rest ∧ Point fraction.value point := by
  unfold fraction? at h
  split at h
  · obtain ⟨digits, hdigits, rfl⟩ := Option.map_eq_some_iff.1 h
    obtain ⟨htext, hrun⟩ := eq_append_of_run? hdigits
    exact ⟨_, congrArg ('.' :: ·) htext, .digits hrun⟩
  · cases h
    exact ⟨[], rfl, .absent⟩

theorem exists_of_exponentDigits? {letter : Char} (hletter : letter = 'e' ∨ letter = 'E') {text : List Char}
    {digits : Taken Int text} (h : exponentDigits? text = some digits) :
    ∃ front, text = front ++ digits.rest ∧ Power (some digits.value) (letter :: front) := by
  unfold exponentDigits? at h
  split at h
  all_goals
    obtain ⟨ds, hds, rfl⟩ := Option.map_eq_some_iff.1 h
    obtain ⟨htext, hrun⟩ := eq_append_of_run? hds
  · exact ⟨_, congrArg ('+' :: ·) htext, .plus hletter hrun⟩
  · exact ⟨_, congrArg ('-' :: ·) htext, .minus hletter hrun⟩
  · exact ⟨_, htext, .plain hletter hrun⟩

theorem exists_of_exponent? {text : List Char} {exponent : Reached (Option Int) text}
    (h : exponent? text = some exponent) : ∃ power, text = power ++ exponent.rest ∧ Power exponent.value power := by
  unfold exponent? at h
  split at h
  · cases h
    exact ⟨[], rfl, .absent⟩
  · next c rest =>
    split at h
    · next hc =>
      obtain ⟨digits, hdigits, rfl⟩ := Option.map_eq_some_iff.1 h
      obtain ⟨front, htext, hpower⟩ := exists_of_exponentDigits? hc hdigits
      exact ⟨_, congrArg (c :: ·) htext, hpower⟩
    · cases h
      exact ⟨[], rfl, .absent⟩

theorem numeral?_covers {text : List Char} {taken : Taken Numeral text} (h : numeral? text = some taken) :
    Covers Spells taken := by
  obtain ⟨whole, hwhole, h⟩ := Option.bind_eq_some_iff.1 h
  split at h
  · cases h
  · next hzero =>
    obtain ⟨fraction, hfraction, h⟩ := Option.bind_eq_some_iff.1 h
    obtain ⟨exponent, hexponent, rfl⟩ := Option.map_eq_some_iff.1 h
    obtain ⟨hdigits, hrun⟩ := eq_append_of_run? hwhole
    obtain ⟨point, htail, hpoint⟩ := exists_of_fraction? hfraction
    obtain ⟨power, hend, hpower⟩ := exists_of_exponent? hexponent
    have htext := eq_append_trans (eq_append_trans (eq_append_trans (eq_append_of_minus text) hdigits) htail) hend
    simp only [List.append_assoc _ _ power, List.append_assoc _ _ (point ++ power)] at htext
    refine ⟨_, htext, .mk hrun ?_ hpoint hpower⟩
    intro hhead
    exact Decidable.of_not_not fun hne => hzero ⟨hhead, hne⟩

/-! ## Values -/

theorem covers_of_front? {α : Type} {R : α → List Char → Prop} {first : Char} {more text : List Char} {value : α}
    {taken : Taken α text} (h : front? first more value text = some taken) (hR : R value (first :: more)) :
    Covers R taken := by
  obtain ⟨htext, rfl⟩ := eq_append_of_front? h
  exact ⟨_, htext, hR⟩

theorem scalarValue?_covers {text : List Char} {taken : Taken Json text} (h : scalarValue? text = some taken) :
    Covers (Scalar AnyNumeral) taken := by
  unfold scalarValue? at h
  split at h
  · obtain ⟨string, hstring, rfl⟩ := Option.map_eq_some_iff.1 h
    obtain ⟨body, htext, hbody⟩ := exists_of_stringBody? _ hstring
    refine ⟨_, (congrArg ('"' :: ·) htext).trans ?_, .string hbody⟩
    simp only [Taken.behind_rest, Taken.map_rest, List.cons_append, List.append_assoc, List.nil_append]
  · exact covers_of_front? h .null
  · exact covers_of_front? h .true
  · exact covers_of_front? h .false
  · obtain ⟨numeral, hnumeral, h⟩ := Option.bind_eq_some_iff.1 h
    obtain ⟨n, hn, rfl⟩ := Option.map_eq_some_iff.1 h
    obtain ⟨front, htext, hfront⟩ := numeral?_covers hnumeral
    exact ⟨front, htext, .number trivial hfront hn⟩

/-- An element reader takes blanks and a spelling in `R` off the front of the text. -/
def ReadsIn {α : Type} (R : α → List Char → Prop) (element : (text : List Char) → Option (Taken α text)) : Prop :=
  ∀ {text : List Char} {taken : Taken α text}, element text = some taken →
    ∃ before front, text = before ++ front ++ taken.rest ∧ Blank before ∧ R taken.value front

section

variable {α : Type} {R : α → List Char → Prop} {close : Char}
  {element : (text : List Char) → Option (Taken α text)} (helement : ReadsIn R element)

include helement

theorem exists_of_elements? : ∀ (text : List Char) {taken : Taken (List α) text},
    elements? close element text = some taken → ∃ body, text = body ++ close :: taken.rest ∧ Elements R taken.value body
  | text, taken, h => by
    rw [elements?] at h
    obtain ⟨first, hfirst, h⟩ := Option.bind_eq_some_iff.1 h
    obtain ⟨before, front, htext, hbefore, hfront⟩ := helement hfirst
    split at h
    · next comma hcomma =>
      obtain ⟨more, hmore, rfl⟩ := Option.map_eq_some_iff.1 h
      obtain ⟨behind, hrest, hbehind⟩ := exists_of_mark? hcomma
      have hfirstshorter := first.shorter
      have hcommashorter := comma.shorter
      obtain ⟨body, htail, hbody⟩ := exists_of_elements? comma.rest hmore
      refine ⟨_, ?_, .comma hbefore hfront hbehind hbody⟩
      have hwhole := eq_append_trans (eq_append_trans htext hrest) (cons_eq_append ',' htail)
      simpa only [List.append_assoc, List.cons_append, Taken.after_rest, Taken.map_rest] using hwhole
    · obtain ⟨closed, hclosed, rfl⟩ := Option.map_eq_some_iff.1 h
      obtain ⟨behind, hrest, hbehind⟩ := exists_of_mark? hclosed
      refine ⟨_, ?_, .last hbefore hfront hbehind⟩
      have hwhole := eq_append_trans htext hrest
      simpa only [List.append_assoc, Taken.after_rest, Taken.map_rest] using hwhole
termination_by text => text.length

theorem exists_of_list? {text : List Char} {taken : Taken (List α) text} (h : list? close element text = some taken) :
    ∃ body, text = body ++ close :: taken.rest ∧ Listed R taken.value body := by
  unfold list? at h
  split at h
  · next closed hclosed =>
    cases h
    obtain ⟨blanks, htext, hblanks⟩ := exists_of_mark? hclosed
    exact ⟨blanks, htext, .none hblanks⟩
  · obtain ⟨body, htext, hbody⟩ := exists_of_elements? helement text h
    exact ⟨body, htext, .some hbody⟩

end

theorem member?_readsIn {R : Json → List Char → Prop} {value : (text : List Char) → Option (Taken Json text)}
    (hvalue : ∀ {text : List Char} {taken : Taken Json text}, value text = some taken →
      ∃ before front, text = before ++ front ++ taken.rest ∧ Blank before ∧ R taken.value front) :
    ReadsIn (Member R) (member? value) := by
  intro text taken h
  obtain ⟨opened, hopened, h⟩ := Option.bind_eq_some_iff.1 h
  obtain ⟨key, hkey, h⟩ := Option.bind_eq_some_iff.1 h
  obtain ⟨colon, hcolon, h⟩ := Option.bind_eq_some_iff.1 h
  obtain ⟨v, hv, rfl⟩ := Option.map_eq_some_iff.1 h
  obtain ⟨start, hstart, hstartblank⟩ := exists_of_mark? hopened
  obtain ⟨body, hbody, hchars⟩ := exists_of_stringBody? _ hkey
  obtain ⟨before, hbefore, hbeforeblank⟩ := exists_of_mark? hcolon
  obtain ⟨behind, front, hfront, hbehind, hR⟩ := hvalue hv
  refine ⟨start, _, ?_, hstartblank, .mk hchars hbeforeblank hbehind hR⟩
  have hname := eq_append_trans hstart (cons_eq_append '"' hbody)
  have hmark := eq_append_trans hname (cons_eq_append '"' hbefore)
  have hwhole := eq_append_trans hmark (cons_eq_append ':' hfront)
  simpa only [List.append_assoc, List.cons_append, Taken.after_rest, Taken.map_rest] using hwhole

theorem readsIn_of_scalarValue? (budget : Nat) {text : List Char} {taken : Taken Json (run isSpace text).rest}
    (h : scalarValue? (run isSpace text).rest = some taken) :
    ∃ before front, text = before ++ front ++ taken.rest ∧ Blank before ∧
      Value AnyNumeral budget taken.value front := by
  obtain ⟨htext, hblank⟩ := eq_append_of_run isSpace text
  obtain ⟨front, hrest, hfront⟩ := scalarValue?_covers h
  exact ⟨_, front, eq_append_trans htext hrest, hblank, hfront.value budget⟩

theorem value?_readsIn (budget : Nat) : ReadsIn (Value AnyNumeral budget) (value? budget) := by
  induction budget with
  | zero =>
    intro text taken h
    rw [value?.eq_def] at h
    dsimp only at h
    split at h
    · cases h
    · cases h
    · obtain ⟨scalar, hscalar, rfl⟩ := Option.map_eq_some_iff.1 h
      exact readsIn_of_scalarValue? 0 hscalar
  | succ budget ih =>
    intro text taken h
    obtain ⟨htext, hblank⟩ := eq_append_of_run isSpace text
    rw [value?.eq_def] at h
    dsimp only at h
    split at h
    · next hopened =>
      obtain ⟨items, hitems, rfl⟩ := Option.map_eq_some_iff.1 h
      obtain ⟨body, hbody, hlisted⟩ := exists_of_list? ih hitems
      have hwhole := eq_append_trans (eq_append_trans htext (eq_append_of_front? hopened).1) hbody
      refine ⟨_, _, ?_, hblank, .inr (.array hlisted)⟩
      simpa only [List.append_assoc, List.cons_append, List.nil_append, Reached.after_rest, Taken.after_rest,
        Taken.map_rest] using hwhole
    · next hopened =>
      obtain ⟨members, hmembers, rfl⟩ := Option.map_eq_some_iff.1 h
      obtain ⟨body, hbody, hlisted⟩ := exists_of_list? (member?_readsIn ih) hmembers
      have hwhole := eq_append_trans (eq_append_trans htext (eq_append_of_front? hopened).1) hbody
      refine ⟨_, _, ?_, hblank, .inr (.object hlisted)⟩
      simpa only [List.append_assoc, List.cons_append, List.nil_append, Reached.after_rest, Taken.after_rest,
        Taken.map_rest] using hwhole
    · obtain ⟨scalar, hscalar, rfl⟩ := Option.map_eq_some_iff.1 h
      exact readsIn_of_scalarValue? (budget + 1) hscalar

end StateScript.Json.Reader

namespace StateScript.Json

open Text Grammar

/-- A text that is read as JSON holds the value, in the grammar. -/
theorem holds_of_read? {text : List Char} {v : Json} (h : read? text = some v) :
    Holds Reader.AnyNumeral maxDepth v text := by
  obtain ⟨whole, hwhole, h⟩ := Option.bind_eq_some_iff.1 h
  split at h
  · next hend =>
    cases h
    obtain ⟨before, front, htext, hbefore, hfront⟩ := Reader.value?_readsIn maxDepth hwhole
    obtain ⟨hbehind, hblank⟩ := eq_append_of_run Reader.isSpace whole.rest
    rw [hend, List.append_nil] at hbehind
    have hrest : Blank whole.rest := fun c hc => hblank c (hbehind ▸ hc)
    have hholds := Holds.mk hbefore hfront hrest
    rwa [← List.append_assoc, ← htext] at hholds
  · cases h

end StateScript.Json
