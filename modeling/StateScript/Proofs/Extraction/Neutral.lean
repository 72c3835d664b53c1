/-
Texts that are neutral to both searches in a call, the one for its closing parenthesis and the one for
its separating commas. Neither ends in such a text nor is in another state behind it than before it.
Strings in quote marks are neutral, and so is the compact text of a JSON value, if none of its strings
holds a mark that the first search takes for the end of a string.

The two searches tell strings apart differently: the first by any mark that is not right behind a
backslash, the second by the mark that began the string and by true escapes. In a string of JSON text the
two agree as long as no apostrophe and no backtick stands in it, and no backslash at its end.
-/
import StateScript.Proofs.Extraction.Reprint
import StateScript.Proofs.Json.Printing
import StateScript.Text.Letter

namespace StateScript

open Text Arguments

/-! ## In a string -/

namespace CallScan

/-- In a string nothing closes the call, and the string goes on unless a mark ends it. -/
theorem step_quoted {s : CallScan} (hs : s.quoted = true) {c : Char} (hc : isQuote c = true → s.afterBackslash = true) :
    s.closes c = false ∧ (s.step c).quoted = true ∧ (s.step c).depth = s.depth := by
  refine ⟨by simp [closes, hs], ?_, by simp [step, hs]⟩
  unfold step
  simp only [hs]
  split
  · next h => exact absurd (hc h.1) h.2
  · rfl

end CallScan

/-- In a string in the marks `q`, both searches are still in the string behind the text. -/
structure InString (q : Char) (text : List Char) : Prop where
  scan : ∀ s : CallScan, s.quoted = true →
    s.Stays text ∧ (s.past text).quoted = true ∧ (s.past text).depth = s.depth
  nesting : ∀ n : Nesting, n.quote = some q → n.escaped = false → Uncut n text ∧ n.past text = n

namespace InString

variable {q : Char}

theorem not_atComma {n : Nesting} (h : n.quote = some q) : ¬ n.atComma = true := by
  intro hcomma
  rw [Nesting.atComma_iff.1 hcomma] at h
  cases h

theorem nil : InString q [] where
  scan _ hs := ⟨trivial, hs, rfl⟩
  nesting n _ _ := ⟨uncut_nil n, rfl⟩

theorem append {a b : List Char} (ha : InString q a) (hb : InString q b) : InString q (a ++ b) where
  scan := by
    intro s hs
    obtain ⟨hstays, hquoted, hdepth⟩ := ha.scan s hs
    obtain ⟨hstays', hquoted', hdepth'⟩ := hb.scan _ hquoted
    rw [CallScan.stays_append_iff, CallScan.past_append]
    exact ⟨⟨hstays, hstays'⟩, hquoted', hdepth'.trans hdepth⟩
  nesting := by
    intro n hn he
    obtain ⟨huncut, hpast⟩ := ha.nesting n hn he
    obtain ⟨huncut', hpast'⟩ := hb.nesting n hn he
    rw [uncut_append_iff, Nesting.past_append, hpast]
    exact ⟨⟨huncut, huncut'⟩, hpast'⟩

/-- A character that is neither a mark nor a backslash. -/
theorem char (hq : isQuote q = true) {c : Char} (hc : isQuote c = false) (hback : c ≠ '\\') : InString q [c] where
  scan := by
    intro s hs
    obtain ⟨hcloses, hquoted, hdepth⟩ := CallScan.step_quoted hs (c := c) (by rw [hc]; exact fun h => by cases h)
    exact ⟨⟨hcloses, trivial⟩, hquoted, hdepth⟩
  nesting := by
    intro n hn he
    have hcq : c ≠ q := by
      rintro rfl
      rw [hq] at hc
      cases hc
    refine ⟨uncut_cons_iff.2 ⟨fun h => not_atComma hn h.2, uncut_nil _⟩, ?_⟩
    show n.step c = n
    simp [Nesting.step, he, hback, hn, hcq]

theorem chars (hq : isQuote q = true) {text : List Char} (h : ∀ c ∈ text, isQuote c = false ∧ c ≠ '\\') :
    InString q text := by
  induction text with
  | nil => exact nil
  | cons c text ih =>
    obtain ⟨hc, hback⟩ := h c List.mem_cons_self
    exact (char hq hc hback).append (ih fun d hd => h d (List.mem_cons_of_mem _ hd))

/-- Any character behind a backslash. -/
theorem escaped (c : Char) : InString q ['\\', c] where
  scan := by
    intro s hs
    obtain ⟨hcloses, hquoted, hdepth⟩ := CallScan.step_quoted hs (c := '\\') (fun h => by cases h)
    obtain ⟨hcloses', hquoted', hdepth'⟩ := CallScan.step_quoted hquoted (c := c) (fun _ => rfl)
    exact ⟨⟨hcloses, hcloses', trivial⟩, hquoted', hdepth'.trans hdepth⟩
  nesting := by
    intro n hn he
    obtain ⟨_, _, parens, brackets, braces⟩ := n
    subst hn he
    have hback : (⟨false, some q, parens, brackets, braces⟩ : Nesting).step '\\' =
        ⟨true, some q, parens, brackets, braces⟩ := rfl
    refine ⟨?_, rfl⟩
    rw [uncut_cons_iff, uncut_cons_iff, hback]
    exact ⟨fun h => not_atComma rfl h.2, fun h => not_atComma rfl h.2, uncut_nil _⟩

/-- Behind a text that ends in no backslash the next mark ends the string. -/
theorem past_eq {text : List Char} (h : InString q text) (hlast : text.getLast? ≠ some '\\') (depth : Nat) :
    (⟨depth, true, false⟩ : CallScan).past text = ⟨depth, true, false⟩ := by
  obtain ⟨-, hquoted, hdepth⟩ := h.scan ⟨depth, true, false⟩ rfl
  have hback : ((⟨depth, true, false⟩ : CallScan).past text).afterBackslash = false := by
    rcases List.eq_nil_or_concat text with rfl | ⟨front, c, rfl⟩
    · rfl
    · rw [List.concat_eq_append, CallScan.afterBackslash_past_concat]
      refine decide_eq_false ?_
      rintro rfl
      simp at hlast
  generalize (⟨depth, true, false⟩ : CallScan).past text = s at hquoted hdepth hback
  obtain ⟨_, _, _⟩ := s
  subst hquoted hdepth hback
  rfl

end InString

/-! ## Neutral texts -/

/-- The search at a depth, outside of strings and not behind a backslash. -/
def CallScan.outside (depth : Nat) : CallScan := ⟨depth, false, false⟩

/-- So many brackets and braces are open, and nothing else. -/
def Arguments.Nesting.within (brackets braces : Nat) : Nesting := ⟨false, none, 0, brackets, braces⟩

/-- Outside of strings neither search ends in the text, and both are behind it as they were before it; its
commas separate no arguments where at least so many brackets and braces are open. -/
structure Neutral (level : Nat) (text : List Char) : Prop where
  scan : ∀ depth, (CallScan.outside depth).Stays text ∧ (CallScan.outside depth).past text = .outside depth
  nesting : ∀ brackets braces, (Nesting.within brackets braces).past text = .within brackets braces
  uncut : ∀ brackets braces, level ≤ brackets + braces → Uncut (.within brackets braces) text

/-- A character that means nothing to either search. -/
def isInert (c : Char) : Bool :=
  !isQuote c && decide (c ∉ ['\\', '(', ')', '[', ']', '\x7b', '\x7d', ','])

namespace Neutral

theorem nil (level : Nat) : Neutral level [] where
  scan _ := ⟨trivial, rfl⟩
  nesting _ _ := rfl
  uncut _ _ _ := uncut_nil _

theorem mono {level more : Nat} (hlevel : level ≤ more) {text : List Char} (h : Neutral level text) :
    Neutral more text where
  scan := h.scan
  nesting := h.nesting
  uncut brackets braces hmore := h.uncut brackets braces (Nat.le_trans hlevel hmore)

theorem append {level : Nat} {a b : List Char} (ha : Neutral level a) (hb : Neutral level b) :
    Neutral level (a ++ b) where
  scan := by
    intro depth
    obtain ⟨hstays, hpast⟩ := ha.scan depth
    obtain ⟨hstays', hpast'⟩ := hb.scan depth
    rw [CallScan.stays_append_iff, CallScan.past_append, hpast]
    exact ⟨⟨hstays, hstays'⟩, hpast'⟩
  nesting := by
    intro brackets braces
    rw [Nesting.past_append, ha.nesting, hb.nesting]
  uncut := by
    intro brackets braces hlevel
    rw [uncut_append_iff, ha.nesting]
    exact ⟨ha.uncut brackets braces hlevel, hb.uncut brackets braces hlevel⟩

theorem inert {c : Char} (h : isInert c = true) : Neutral 0 [c] := by
  simp only [isInert, List.mem_cons, List.not_mem_nil, or_false, Bool.and_eq_true, Bool.not_eq_true',
    decide_eq_true_eq, not_or] at h
  obtain ⟨hquote, hback, hopen, hclose, hbracket, hbracket', hbrace, hbrace', hcomma⟩ := h
  refine ⟨fun depth => ⟨⟨by simp [CallScan.closes, hclose], trivial⟩, ?_⟩, fun brackets braces => ?_,
    fun brackets braces _ => uncut_cons_iff.2 ⟨fun hc => hcomma hc.1, uncut_nil _⟩⟩
  · show (CallScan.outside depth).step c = .outside depth
    simp [CallScan.step, CallScan.outside, hquote, hback, hopen, hclose]
  · show (Nesting.within brackets braces).step c = .within brackets braces
    simp [Nesting.step, Nesting.openClose, Nesting.within, hquote, hback, hopen, hclose, hbracket, hbracket', hbrace,
      hbrace']

theorem of_inert {text : List Char} (h : text.all isInert = true) : Neutral 0 text := by
  induction text with
  | nil => exact nil 0
  | cons c text ih =>
    obtain ⟨hc, hmore⟩ := (Bool.and_eq_true _ _).mp h
    exact (inert hc).append (ih hmore)

/-- A comma separates nothing inside of brackets or braces. -/
theorem comma : Neutral 1 [','] where
  scan _ := ⟨⟨rfl, trivial⟩, rfl⟩
  nesting _ _ := rfl
  uncut := by
    intro brackets braces hlevel
    refine uncut_cons_iff.2 ⟨?_, uncut_nil _⟩
    rintro ⟨-, hcomma⟩
    have hstart := Nesting.atComma_iff.1 hcomma
    simp only [Nesting.within, Nesting.mk.injEq] at hstart
    omega

/-- Neutral texts with a neutral one between them. -/
theorem intercalate {level : Nat} {between : List Char} (hbetween : Neutral level between) {texts : List (List Char)}
    (h : ∀ text ∈ texts, Neutral level text) : Neutral level (between.intercalate texts) := by
  induction texts with
  | nil => exact nil level
  | cons text more ih =>
    have htext := h text List.mem_cons_self
    cases more with
    | nil => rwa [List.intercalate_singleton]
    | cons next more =>
      rw [List.intercalate_cons_cons]
      exact (htext.append hbetween).append (ih fun other hother => h other (List.mem_cons_of_mem text hother))

/-- What is neutral inside of brackets or braces is neutral with them around it. -/
theorem between {opening closing : Char} {body : List Char}
    (hscan : ∀ depth, ∀ c ∈ [opening, closing],
      (CallScan.outside depth).closes c = false ∧ (CallScan.outside depth).step c = .outside depth)
    (hnesting : ∀ brackets braces, ∃ more others, 1 ≤ more + others ∧
      (Nesting.within brackets braces).step opening = .within more others ∧
      (Nesting.within more others).step closing = .within brackets braces)
    (hcomma : opening ≠ ',' ∧ closing ≠ ',') (h : Neutral 1 body) : Neutral 0 (opening :: (body ++ [closing])) where
  scan := by
    intro depth
    obtain ⟨hstays, hpast⟩ := h.scan depth
    obtain ⟨hopens, hopened⟩ := hscan depth opening List.mem_cons_self
    obtain ⟨hcloses, hclosed⟩ := hscan depth closing (List.mem_cons_of_mem _ List.mem_cons_self)
    rw [CallScan.Stays, hopened, CallScan.stays_append_iff, CallScan.past_cons, hopened, CallScan.past_append, hpast]
    exact ⟨⟨hopens, hstays, hcloses, trivial⟩, hclosed⟩
  nesting := by
    intro brackets braces
    obtain ⟨more, others, -, hopened, hclosed⟩ := hnesting brackets braces
    rw [Nesting.past_cons, hopened, Nesting.past_append, h.nesting]
    exact hclosed
  uncut := by
    intro brackets braces _
    obtain ⟨more, others, hmore, hopened, -⟩ := hnesting brackets braces
    rw [uncut_cons_iff, hopened, uncut_append_iff, h.nesting, uncut_cons_iff]
    exact ⟨fun hc => hcomma.1 hc.1, h.uncut more others hmore, fun hc => hcomma.2 hc.1, uncut_nil _⟩

theorem brackets {body : List Char} (h : Neutral 1 body) : Neutral 0 ('[' :: (body ++ [']'])) := by
  refine between ?_ ?_ (by decide) h
  · intro depth c hc
    simp only [List.mem_cons, List.not_mem_nil, or_false] at hc
    rcases hc with rfl | rfl <;> exact ⟨rfl, rfl⟩
  · intro brackets braces
    refine ⟨brackets + 1, braces, by omega, rfl, ?_⟩
    simp [Nesting.step, Nesting.openClose, Nesting.within, isQuote]

theorem braces {body : List Char} (h : Neutral 1 body) : Neutral 0 ('\x7b' :: (body ++ ['\x7d'])) := by
  refine between ?_ ?_ (by decide) h
  · intro depth c hc
    simp only [List.mem_cons, List.not_mem_nil, or_false] at hc
    rcases hc with rfl | rfl <;> exact ⟨rfl, rfl⟩
  · intro brackets braces
    refine ⟨brackets, braces + 1, by omega, rfl, ?_⟩
    simp [Nesting.step, Nesting.openClose, Nesting.within, isQuote]

/-- A string in its marks, if no backslash stands before the last one. -/
theorem quoted {q : Char} (hq : isQuote q = true) {inner : List Char} (h : InString q inner)
    (hlast : inner.getLast? ≠ some '\\') : Neutral 0 (q :: (inner ++ [q])) := by
  have hmark : q = '"' ∨ q = '\'' ∨ q = '\x60' := by simpa [isQuote, or_assoc] using hq
  have hnesting : ∀ brackets braces : Nat,
      (Nesting.within brackets braces).step q = ⟨false, some q, 0, brackets, braces⟩ ∧
        (⟨false, some q, 0, brackets, braces⟩ : Nesting).step q = .within brackets braces := by
    intro brackets braces
    rcases hmark with rfl | rfl | rfl <;> exact ⟨rfl, rfl⟩
  refine ⟨fun depth => ?_, fun brackets braces => ?_, fun brackets braces _ => ?_⟩
  · have hopens : (CallScan.outside depth).closes q = false ∧
        (CallScan.outside depth).step q = ⟨depth, true, false⟩ := by
      rcases hmark with rfl | rfl | rfl <;> exact ⟨rfl, rfl⟩
    have hcloses : (⟨depth, true, false⟩ : CallScan).closes q = false ∧
        (⟨depth, true, false⟩ : CallScan).step q = .outside depth := by
      rcases hmark with rfl | rfl | rfl <;> exact ⟨rfl, rfl⟩
    obtain ⟨hstays, -, -⟩ := h.scan ⟨depth, true, false⟩ rfl
    rw [CallScan.Stays, hopens.2, CallScan.stays_append_iff, CallScan.past_cons, hopens.2, CallScan.past_append,
      h.past_eq hlast]
    exact ⟨⟨hopens.1, hstays, hcloses.1, trivial⟩, hcloses.2⟩
  · obtain ⟨hopened, hclosed⟩ := hnesting brackets braces
    rw [Nesting.past_cons, hopened, Nesting.past_append, (h.nesting _ rfl rfl).2]
    exact hclosed
  · obtain ⟨hopened, -⟩ := hnesting brackets braces
    have hcomma : q ≠ ',' := by rcases hmark with rfl | rfl | rfl <;> decide
    rw [uncut_cons_iff, hopened, uncut_append_iff, uncut_cons_iff]
    exact ⟨fun hc => hcomma hc.1, (h.nesting _ rfl rfl).1, fun hc => hcomma hc.1, uncut_nil _⟩

theorem isArgument {text : List Char} (h : Neutral 0 text) (htrim : trim text = text) : IsArgument text where
  trimmed := htrim
  uncut := h.uncut 0 0 (Nat.le_refl 0)
  closed := congrArg Nesting.isClosed (h.nesting 0 0)

end Neutral

/-- A command whose arguments are neutral texts is read again where it is printed. -/
theorem Command.readable_of_neutral {command : Command}
    (h : ∀ a ∈ command.arguments, Neutral 0 a.toList ∧ trim a.toList = a.toList)
    (hlast : command.arguments.getLast? ≠ some "") : command.Readable := by
  have hinside : Neutral 1 command.inside := by
    have hblank : Neutral 1 [' '] := Neutral.mono (Nat.zero_le 1) (.inert (by decide))
    refine .intercalate (.append .comma hblank) ?_
    intro text htext
    obtain ⟨a, ha, rfl⟩ := List.mem_map.1 htext
    exact (h a ha).1.mono (Nat.zero_le 1)
  have hargument : ∀ text ∈ command.arguments.map String.toList, IsArgument text := by
    intro text htext
    obtain ⟨a, ha, rfl⟩ := List.mem_map.1 htext
    exact (h a ha).1.isArgument (h a ha).2
  -- behind a neutral text nothing is escaped
  have hback : ∀ text ∈ (command.arguments.map String.toList).dropLast, trailingBackslashes text % 2 ≠ 1 := by
    intro text htext hodd
    obtain ⟨a, ha, rfl⟩ := List.mem_map.1 ((List.dropLast_sublist _).mem htext)
    have hescaped := (escaped_past_iff a.toList).2 hodd
    have hpast : ({} : Nesting).past a.toList = {} := (h a ha).1.nesting 0 0
    rw [hpast] at hescaped
    cases hescaped
  obtain ⟨hsplit, hbalanced⟩ := split_intercalate hargument hback (getLast?_map_toList hlast)
  refine ⟨(hinside.scan 1).1, ?_, ?_⟩
  · show ((CallScan.outside 1).past command.inside).closes ')' = true
    rw [(hinside.scan 1).2]
    rfl
  · rw [splitBalanced?, Command.inside, if_pos hbalanced, hsplit]

/-! ## Printed values -/

namespace Json

mutual

/-- Every string in the value passes, the keys of its objects among them. -/
def eachString (p : String → Bool) : Json → Bool
  | string s => p s
  | array items => eachStringOfItems p items
  | object members => eachStringOfMembers p members
  | _ => true
termination_by structural v => v

/-- Every string in the items passes. -/
def eachStringOfItems (p : String → Bool) : List Json → Bool
  | [] => true
  | v :: more => v.eachString p && eachStringOfItems p more
termination_by structural vs => vs

/-- Every key, and every string in the values, passes. -/
def eachStringOfMembers (p : String → Bool) : List (String × Json) → Bool
  | [] => true
  | (key, v) :: more => p key && v.eachString p && eachStringOfMembers p more
termination_by structural ms => ms

end

/-- Neither an apostrophe nor a backtick stands in the string, and no backslash at its end. -/
def isQuotable (s : String) : Bool := s.toList.all (fun c => c != '\'' && c != '\x60') && s.toList.getLast? != some '\\'

/-! ### Strings -/

theorem isQuote_hexChar : ∀ n < 16, isQuote (hexChar n) = false ∧ hexChar n ≠ '\\' := by decide

/-- A character is printed by one that is neither a mark nor a backslash, or by an escape. -/
theorem inString_escape {c : Char} (hc : c ≠ '\'' ∧ c ≠ '\x60') : InString '"' (escape c) := by
  unfold escape
  split_ifs with hquote hback hn hr ht hb hf hcontrol
  all_goals try exact .escaped _
  · have hhex : ∀ d ∈ ['0', '0', hexChar (c.toNat / 16), hexChar (c.toNat % 16)], isQuote d = false ∧ d ≠ '\\' := by
      simp only [List.mem_cons, List.not_mem_nil, or_false]
      rintro d (rfl | rfl | rfl | rfl)
      · decide
      · decide
      · exact isQuote_hexChar _ (by omega)
      · exact isQuote_hexChar _ (by omega)
    exact (InString.escaped 'u').append (.chars rfl hhex)
  · exact .char rfl (by simp [isQuote, hquote, hc]) hback

theorem getLast?_escape {c : Char} (h : (escape c).getLast? = some '\\') : c = '\\' := by
  unfold escape at h
  split_ifs at h with hquote hback hn hr ht hb hf hcontrol
  · cases h
  · exact hback
  all_goals try (cases h; done)
  · have hlast := (isQuote_hexChar (c.toNat % 16) (by omega)).2
    exact absurd (Option.some.inj h) hlast
  · exact Option.some.inj h

theorem escape_ne_nil (c : Char) : escape c ≠ [] := by
  unfold escape
  split_ifs <;> exact List.cons_ne_nil _ _

/-- A string in its quotes is neutral. -/
theorem neutral_quote {s : String} (h : isQuotable s = true) : Neutral 0 (quote s []) := by
  simp only [isQuotable, Bool.and_eq_true, List.all_eq_true, bne_iff_ne] at h
  obtain ⟨hchars, hlast⟩ := h
  refine .quoted rfl ?_ ?_
  · generalize s.toList = chars at hchars
    clear hlast
    induction chars with
    | nil => exact .nil
    | cons c chars ih =>
      rw [List.flatMap_cons]
      exact (inString_escape (hchars c List.mem_cons_self)).append (ih fun d hd => hchars d (List.mem_cons_of_mem _ hd))
  · rcases List.eq_nil_or_concat s.toList with hs | ⟨front, c, hs⟩
    · simp [hs]
    · rw [List.concat_eq_append] at hs
      have hlastOf := List.getLast?_eq_some_getLast (escape_ne_nil c)
      rw [hs, List.flatMap_append, List.flatMap_singleton, List.getLast?_append, hlastOf, Option.some_or, ← hlastOf]
      intro hback
      rw [getLast?_escape hback] at hs
      simp [hs] at hlast

/-! ### Values -/

theorem neutral_intDigits (i : Int) : Neutral 0 (intDigits i) := by
  have hdigit : ∀ c : Char, c.isDigit = true → isInert c = true := fun c h =>
    of_ascii (P := fun c => c.isDigit = true → isInert c = true) (by decide) (toNat_lt_of_isDigit h) h
  have hdigits : (toDigits i.natAbs).all isInert = true :=
    List.all_eq_true.2 fun c hc => hdigit c (isDigit_of_mem_toDigits hc)
  rw [intDigits]
  split
  · exact (Neutral.inert (c := '-') (by decide)).append (.of_inert hdigits)
  · exact .of_inert hdigits

/-- Listed texts have nothing but a comma between them. -/
theorem compact_list_eq (level : Nat) : ∀ texts : List (List Char),
    Layout.compact.list level texts [] = [','].intercalate texts
  | [] => rfl
  | [text] => by rw [Layout.list, List.append_nil, List.intercalate_singleton]; rfl
  | text :: next :: more => by
    rw [Layout.list, compact_list_eq level (next :: more), List.intercalate_cons_cons, List.append_assoc]
    rfl

/-- A key and its value with the colon between them. -/
theorem neutral_printMember (level : Nat) {m : String × Json} (hkey : isQuotable m.1 = true)
    (hvalue : Neutral 0 (print .compact level m.2 [])) : Neutral 0 (printMember .compact level m) := by
  rw [printMember, ← quote_append]
  exact (neutral_quote hkey).append (.append (.inert (c := ':') (by decide)) hvalue)

theorem neutral_print_array {level : Nat} {items : List Json}
    (h : ∀ v ∈ items, Neutral 0 (print .compact (level + 1) v [])) :
    Neutral 0 (print .compact level (.array items) []) := by
  have hitems : Neutral 1 (printItems .compact (level + 1) items []) := by
    rw [printItems_eq, compact_list_eq]
    refine .intercalate .comma fun text htext => ?_
    obtain ⟨v, hv, rfl⟩ := List.mem_map.1 htext
    exact (h v hv).mono (Nat.zero_le 1)
  have hprint : print .compact level (.array items) [] =
      '[' :: (printItems .compact (level + 1) items [] ++ [']']) := by
    rw [printItems_append, print]
    cases items <;> rfl
  rw [hprint]
  exact hitems.brackets

theorem neutral_print_object {level : Nat} {members : List (String × Json)}
    (h : ∀ m ∈ members, isQuotable m.1 = true ∧ Neutral 0 (print .compact (level + 1) m.2 [])) :
    Neutral 0 (print .compact level (.object members) []) := by
  have hmembers : Neutral 1 (printMembers .compact (level + 1) members []) := by
    rw [printMembers_eq, compact_list_eq]
    refine .intercalate .comma fun text htext => ?_
    obtain ⟨m, hm, rfl⟩ := List.mem_map.1 htext
    exact (neutral_printMember _ (h m hm).1 (h m hm).2).mono (Nat.zero_le 1)
  have hprint : print .compact level (.object members) [] =
      '\x7b' :: (printMembers .compact (level + 1) members [] ++ ['\x7d']) := by
    rw [printMembers_append, print]
    cases members <;> rfl
  rw [hprint]
  exact hmembers.braces

mutual

/-- A value with integers for its numbers, printed without gaps, is neutral if its strings all are. -/
theorem neutral_print : ∀ (v : Json) (level : Nat), v.regular Number.isInteger = true →
    v.eachString isQuotable = true → Neutral 0 (print .compact level v [])
  | null, _, _, _ => show Neutral 0 ['n', 'u', 'l', 'l'] from .of_inert (by decide)
  | bool true, _, _, _ => show Neutral 0 ['t', 'r', 'u', 'e'] from .of_inert (by decide)
  | bool false, _, _, _ => show Neutral 0 ['f', 'a', 'l', 's', 'e'] from .of_inert (by decide)
  | number (.int i _), _, _, _ => by
    rw [print, List.append_nil]
    exact neutral_intDigits i
  | number (.float _), _, hregular, _ => by cases hregular
  | string _, _, _, hstrings => neutral_quote hstrings
  | array items, level, hregular, hstrings => neutral_print_array (neutral_items items (level + 1) hregular hstrings)
  | object members, level, hregular, hstrings =>
    neutral_print_object (neutral_members members (level + 1) ((Bool.and_eq_true _ _).mp hregular).2 hstrings)
termination_by structural v => v

theorem neutral_items : ∀ (items : List Json) (level : Nat), regularItems Number.isInteger items = true →
    eachStringOfItems isQuotable items = true → ∀ v ∈ items, Neutral 0 (print .compact level v [])
  | [], _, _, _, _, hv => by cases hv
  | w :: more, level, hregular, hstrings, v, hv => by
    obtain ⟨hw, hmore⟩ := (Bool.and_eq_true _ _).mp hregular
    obtain ⟨hwstrings, hmorestrings⟩ := (Bool.and_eq_true _ _).mp hstrings
    rcases List.mem_cons.1 hv with hv | hv
    · rw [hv]
      exact neutral_print w level hw hwstrings
    · exact neutral_items more level hmore hmorestrings v hv
termination_by structural items => items

theorem neutral_members : ∀ (members : List (String × Json)) (level : Nat),
    regularMembers Number.isInteger members = true → eachStringOfMembers isQuotable members = true →
      ∀ m ∈ members, isQuotable m.1 = true ∧ Neutral 0 (print .compact level m.2 [])
  | [], _, _, _, _, hm => by cases hm
  | (key, w) :: more, level, hregular, hstrings, m, hm => by
    obtain ⟨hw, hmore⟩ := (Bool.and_eq_true _ _).mp hregular
    obtain ⟨hfirst, hmorestrings⟩ := (Bool.and_eq_true _ _).mp hstrings
    obtain ⟨hkey, hwstrings⟩ := (Bool.and_eq_true _ _).mp hfirst
    rcases List.mem_cons.1 hm with hm | hm
    · rw [hm]
      exact ⟨hkey, neutral_print w level hw hwstrings⟩
    · exact neutral_members more level hmore hmorestrings m hm
termination_by structural members => members

end

theorem neutral_compact {v : Json} (hregular : v.regular Number.isInteger = true)
    (hstrings : v.eachString isQuotable = true) : Neutral 0 v.compact :=
  neutral_print v 0 hregular hstrings

end Json

end StateScript
