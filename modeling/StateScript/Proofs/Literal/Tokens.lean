/-
Strings, numbers and words are read in place as they are read off a list of characters. An escape moves on by a
count of bytes that its digits need not fill, by the place where a search found the closing brace, or back to
where it stood; a number and a word are cut out once their ends are found.
-/
import StateScript.Proofs.Literal.Extent
import Mathlib.Data.List.TakeWhile

namespace StateScript.Literal

open Text

variable {text rest left : List Char} {depth : Nat}

/-! ## Escapes and strings of lists -/

theorem hexEscape_eq (size : Nat) (text : List Char) : (hexEscape size text).map Reached.parts =
    match splitBytes? size text with
    | none => .error ⟨.shortEscape, text⟩
    | some (digits, rest) =>
      match hexWord? digits with
      | none => .error ⟨.badEscape (String.ofList digits), text⟩
      | some n => .ok (n, rest) := by
  unfold hexEscape
  split
  · next h => rw [h]; rfl
  · next digits rest h =>
    simp only [h]
    cases hexWord? digits <;> rfl

/-- Behind an opening brace with a closing one to come stand its digits. -/
theorem bracedEscape_eq {digits : List Char} (h : '\x7d' ∉ digits) (rest : List Char) :
    (bracedEscape (digits ++ '\x7d' :: rest)).map Reached.parts =
      match hexWord? digits with
      | none => .error ⟨.badCodePoint (String.ofList digits), digits ++ '\x7d' :: rest⟩
      | some n => .ok (orReplacement n, rest) := by
  have hne : ∀ d ∈ digits, decide (d ≠ '\x7d') = true := fun d hd => decide_eq_true fun hd' => h (hd' ▸ hd)
  obtain ⟨_, hrun⟩ := @run_append (· ≠ '\x7d') digits ('\x7d' :: rest) hne fun _ hd => by cases hd; decide
  unfold bracedEscape
  rw [hrun]
  simp only [front?_cons]
  cases hexWord? digits <;> rfl

theorem bracedEscape_unterminated (h : '\x7d' ∉ text) :
    bracedEscape text = .error ⟨.unterminatedCodePoint, text⟩ := by
  have hne : ∀ d ∈ text, decide (d ≠ '\x7d') = true := fun d hd => decide_eq_true fun hd' => h (hd' ▸ hd)
  have hrest : (run (· ≠ '\x7d') text).rest = [] := List.dropWhile_eq_nil_iff.2 hne
  have hhead : (run (· ≠ '\x7d') text).rest.head? ≠ some '\x7d' := by
    rw [hrest]
    rintro ⟨⟩
  unfold bracedEscape
  simp only [front?_eq_none hhead]

theorem front?_eq_none_of_not_isPrefix {c : Char} {more : List Char} (h : ¬ c :: more <+: text) :
    front? c more () text = none := by
  cases hfront : front? c more () text with
  | none => rfl
  | some mark => exact absurd ⟨mark.rest, (eq_append_of_front? hfront).1.symm⟩ h

/-- What a character in a string stands for, with what follows it if it is a backslash, and what is left. -/
def piece (c : Char) (rest : List Char) : Except Failure (List Char × List Char) :=
  if c = '\\' then (escaped rest).map Taken.parts else .ok ([c], rest)

theorem piece_notLonger {c : Char} {front : List Char × List Char} (h : piece c rest = .ok front) :
    front.2.length ≤ rest.length := by
  unfold piece at h
  split at h
  · obtain ⟨taken, -, rfl⟩ := exists_of_map_eq_ok h
    exact taken.notLonger
  · cases h
    exact Nat.le_refl _

/-- A string goes on behind each of its pieces. -/
theorem quoted_cons {quote c : Char} (hquote : c ≠ quote) (rest : List Char) :
    (quoted quote (c :: rest)).map Taken.parts =
      (piece c rest).bind fun front =>
        ((quoted quote front.2).map Taken.parts).map fun more => (front.1 ++ more.1, more.2) := by
  rw [quoted, if_neg hquote, piece]
  split
  · simp only [bind, Except.bind]
    cases escaped rest with
    | error failure => rfl
    | ok front =>
      simp only [Except.map, Taken.parts]
      cases quoted quote front.rest <;> rfl
  · simp only [Except.bind]
    cases quoted quote rest <;> rfl

/-- A mark that no gap stands before is passed. -/
theorem expect_eq {c : Char} (h : gap (c :: rest) = .ok (.nothing () (c :: rest))) :
    (expect c (c :: rest)).map Taken.parts = .ok ((), rest) := by
  unfold expect
  simp only [h, bind, Except.bind, Reached.nothing, front?_cons]
  rfl

namespace Walk

/-! ## Strings -/

theorem tracks_hexEscape (size : Nat) :
    Tracks (hexEscape size) text rest depth depth ((Literal.hexEscape size rest).map Reached.parts) := by
  rw [hexEscape_eq]
  refine .bind_ok tracks_remaining fun _ => ?_
  cases hsplit : splitBytes? size rest with
  | none => exact tracks_refuse _
  | some parts =>
    obtain ⟨digits, more⟩ := parts
    obtain ⟨rfl, hsize⟩ := splitBytes?_eq_some hsplit
    dsimp only
    cases hexWord? digits with
    | none => exact tracks_refuse _
    | some n => exact .bind_ok (tracks_move _ hsize) fun _ => tracks_pure n

theorem tracks_minus (a b : Nat) : Tracks (minus (a + b) b) text rest depth depth (.ok (a, rest)) := by
  unfold minus
  rw [if_pos (Nat.le_add_left b a), Nat.add_sub_cancel]
  exact tracks_pure a

/-- The halves of a surrogate pair are not below their ranges, and leave no room for more than Unicode has. -/
theorem tracks_pair {high low : Nat} (hhigh : isHighSurrogate high = true) (hlow : isLowSurrogate low = true) :
    Tracks (pair high low) text rest depth depth (.ok (ofSurrogates high low, rest)) := by
  have hvalid := isValidChar_ofSurrogates hhigh hlow
  simp only [isHighSurrogate, isLowSurrogate, Bool.and_eq_true, decide_eq_true_eq] at hhigh hlow
  obtain ⟨m, rfl⟩ := Nat.exists_eq_add_of_le' hhigh.1
  obtain ⟨n, rfl⟩ := Nat.exists_eq_add_of_le' hlow.1
  have hnumber : ofSurrogates (m + 0xd800) (n + 0xdc00) = 0x10000 + m <<< 10 + n := by
    unfold ofSurrogates
    rw [Nat.shiftLeft_eq, Nat.add_sub_cancel, Nat.add_sub_cancel]
  have hbound : 0x10000 + m <<< 10 + n ≤ 0x10ffff := by
    rw [hnumber] at hvalid
    rcases hvalid with hbelow | ⟨-, hbelow⟩ <;> omega
  refine .bind_ok (tracks_minus m 0xd800) fun _ => .bind_ok (tracks_minus n 0xdc00) fun _ => ?_
  dsimp only
  rw [if_pos hbound, hnumber]
  exact tracks_pure _

theorem tracks_bracedEscape :
    Tracks bracedEscape text rest depth depth ((Literal.bracedEscape rest).map Reached.parts) := by
  refine .bind_ok tracks_remaining fun _ => ?_
  cases hfind : find? ['\x7d'] rest with
  | none =>
    rw [bracedEscape_unterminated (not_mem_of_find?_eq_none hfind)]
    exact tracks_refuse _
  | some n =>
    obtain ⟨digits, more, rfl, rfl, hdigits⟩ := find?_singleton_eq_some hfind
    rw [bracedEscape_eq hdigits]
    refine .bind_ok tracks_remaining fun _ => .bind_ok (tracks_cut digits _ rfl) fun _ => ?_
    dsimp only
    cases hexWord? digits with
    | none => exact tracks_refuse _
    | some code =>
      rw [List.append_cons]
      exact .bind_ok (tracks_move _ (byteCount_append _ _)) fun _ => tracks_pure _

theorem tracks_unitEscape :
    Tracks unitEscape text rest depth depth ((Literal.unitEscape rest).map Reached.parts) := by
  unfold Literal.unitEscape
  cases hfirst : Literal.hexEscape 4 rest with
  | error failure => exact .bind_error ((tracks_hexEscape 4).error hfirst)
  | ok first =>
    refine .bind_ok ((tracks_hexEscape 4).ok hfirst) fun _ => .bind_ok tracks_remaining fun _ => ?_
    obtain ⟨code, behind, _⟩ := first
    -- the second half is looked for behind a high surrogate and its mark alone
    by_cases hpair : isHighSurrogate code = true ∧ ['\\', 'u'] <+: behind
    · obtain ⟨hhigh, t, rfl⟩ := hpair
      have hcond : (isHighSurrogate code && ['\\', 'u'].isPrefixOf (['\\', 'u'] ++ t)) = true := by
        rw [hhigh]
        rfl
      obtain ⟨_, hmark⟩ := front?_append '\\' ['u'] () t
      have hmark' : front? '\\' ['u'] () (['\\', 'u'] ++ t) = _ := hmark
      rw [if_pos hcond]
      simp only [bind, Except.bind, hhigh, hmark', if_true]
      refine .bind_ok tracks_offset fun hsaved => .bind_ok (tracks_move ['\\', 'u'] rfl) fun _ => ?_
      cases hsecond : Literal.hexEscape 4 t with
      | error failure => exact .bind_error ((tracks_hexEscape 4).error hsecond)
      | ok second =>
        refine .bind_ok ((tracks_hexEscape 4).ok hsecond) fun _ => ?_
        dsimp only [Except.map, Reached.parts]
        by_cases hlow : isLowSurrogate second.value = true
        · simp only [if_pos hlow]
          exact .bind_ok (tracks_pair hhigh hlow) fun _ => tracks_pure _
        · -- back behind the first four digits, which was an edge of the text before
          simp only [if_neg hlow]
          exact .bind_ok (tracks_moveTo hsaved) fun _ => tracks_pure _
    · have hcond : (isHighSurrogate code && ['\\', 'u'].isPrefixOf behind) ≠ true := by
        rwa [ne_eq, Bool.and_eq_true, List.isPrefixOf_iff_prefix]
      rw [if_neg hcond]
      by_cases hhigh : isHighSurrogate code = true
      · have hmark : front? '\\' ['u'] () behind = none := front?_eq_none_of_not_isPrefix fun hin => hpair ⟨hhigh, hin⟩
        simp only [bind, Except.bind, if_pos hhigh, hmark]
        exact tracks_pure _
      · simp only [bind, Except.bind, if_neg hhigh]
        exact tracks_pure _

theorem tracks_escaped : Tracks escaped text rest depth depth ((Literal.escaped rest).map Taken.parts) := by
  rcases rest with _ | ⟨c, rest⟩
  · exact .bind_ok tracks_bump_nil fun _ => tracks_refuse _
  · refine .bind_ok (tracks_bump_cons c) fun _ => ?_
    unfold Literal.escaped
    dsimp only
    by_cases hu : c = 'u'
    · rw [if_pos hu, if_pos hu]
      by_cases hbrace : rest.head? = some '\x7b'
      · obtain ⟨more, rfl⟩ := List.head?_eq_some_iff.1 hbrace
        refine .bind_ok (tracks_passIf_pos (p := (· == '\x7b')) rfl rfl) fun _ => ?_
        simp only [front?_cons]
        rw [map_map]
        exact tracks_bracedEscape.map_parts (fun d => [d]) fun _ => rfl
      · refine .bind_ok (tracks_passIf_neg fun d hd => ?_) fun _ => ?_
        · exact beq_false_of_ne fun heq => hbrace (heq ▸ hd)
        · simp only [front?_eq_none hbrace]
          rw [map_map]
          exact tracks_unitEscape.map_parts (fun d => [d]) fun _ => rfl
    · rw [if_neg hu, if_neg hu]
      by_cases hx : c = 'x'
      · rw [if_pos hx, if_pos hx, map_map]
        exact (tracks_hexEscape 2).map_parts (fun n => [orReplacement n]) fun _ => rfl
      · rw [if_neg hx, if_neg hx]
        by_cases hline : c = '\n'
        · rw [if_pos hline, if_pos hline]
          exact tracks_pure _
        · rw [if_neg hline, if_neg hline]
          exact tracks_pure _

theorem tracks_written (c : Char) : Tracks (written c) text rest depth depth (piece c rest) := by
  unfold written piece
  split
  · exact tracks_escaped
  · exact tracks_pure [c]

/-- The string behind the characters read before it. -/
def quotedBehind (quote : Char) (read rest : List Char) : Except Failure (List Char × List Char) :=
  ((Literal.quoted quote rest).map Taken.parts).map fun more => (read ++ more.1, more.2)

theorem tracks_quotedRound (quote : Char) (read : List Char) :
    RoundTracks (quotedRound quote) (quotedBehind quote) text depth depth read rest := by
  rcases rest with _ | ⟨c, rest⟩
  · have hbehind : quotedBehind quote read [] = .error ⟨.unterminatedString, []⟩ := by
      rw [quotedBehind, Literal.quoted]
      rfl
    exact .error hbehind (.bind_ok tracks_bump_nil fun _ => tracks_refuse _)
  · by_cases hquote : c = quote
    · have hbehind : quotedBehind quote read (c :: rest) = .ok (read, rest) := by
        rw [quotedBehind, Literal.quoted, if_pos hquote]
        simp only [Except.map, Taken.parts, Taken.first, List.append_nil]
      refine .done hbehind (.bind_ok (tracks_bump_cons c) fun _ => ?_)
      dsimp only
      rw [if_pos hquote]
      exact tracks_pure _
    · have hbehind : quotedBehind quote read (c :: rest) =
          (piece c rest).bind fun front => quotedBehind quote (read ++ front.1) front.2 := by
        unfold quotedBehind
        rw [quoted_cons hquote]
        cases piece c rest with
        | error failure => rfl
        | ok front =>
          simp only [Except.bind, map_map, List.append_assoc]
          rfl
      refine .step (read ++ ·) hbehind (fun _ _ h => Nat.lt_succ_of_le (piece_notLonger h)) ?_
      refine .bind_ok (tracks_bump_cons c) fun _ => ?_
      dsimp only
      rw [if_neg hquote]
      exact (tracks_written c).map fun chars => Round.again (read ++ chars)

theorem tracks_quoted {quote : Char} (h : Literal.gap (quote :: rest) = .ok (.nothing () (quote :: rest))) :
    Tracks (quoted quote) text (quote :: rest) depth depth ((Literal.quoted quote rest).map Taken.parts) := by
  have hexpect : Tracks (expect quote) text (quote :: rest) depth depth _ := tracks_expect quote
  rw [expect_eq h] at hexpect
  refine .bind_ok hexpect fun _ => ?_
  have hrest : Tracks (loop (quotedRound quote) []) text rest depth depth (quotedBehind quote [] rest) :=
    tracks_loop (fun read _ => tracks_quotedRound quote read) [] rest
  rwa [quotedBehind, map_map] at hrest

/-! ## Numbers and words -/

theorem tracks_passSign : Tracks passSign text rest depth depth
    (.ok ((Numeral.signPart rest).value.isSome, (Numeral.signPart rest).rest)) := by
  rcases exists_cons_or isSign rest with ⟨c, rest, rfl, hc⟩ | hnone
  · have hwidth : c.utf8Size = 1 := by
      simp only [isSign, Bool.or_eq_true, beq_iff_eq] at hc
      rcases hc with rfl | rfl <;> rfl
    rw [Numeral.signPart_cons hc]
    exact tracks_passIf_pos hc hwidth
  · rw [Numeral.signPart_eq_nothing hnone]
    exact tracks_passIf_neg hnone

theorem tracks_passDigits : Tracks passDigits text rest depth depth (.ok ((), (run Char.isDigit rest).rest)) :=
  tracks_passWhile fun _ hc =>
    of_ascii (P := fun c => c.isDigit = true → 1 = c.utf8Size) (by decide) (toNat_lt_of_isDigit hc) hc

theorem tracks_passFraction :
    Tracks passFraction text rest depth depth (.ok ((), (Numeral.fractionPart rest).rest)) := by
  rcases exists_cons_or (· == '.') rest with ⟨c, rest, rfl, hc⟩ | hnone
  · obtain rfl : c = '.' := eq_of_beq hc
    exact .bind_ok (tracks_passIf_pos hc rfl) fun _ => tracks_passDigits
  · rw [Numeral.fractionPart_eq_nothing hnone]
    exact .bind_ok (tracks_passIf_neg hnone) fun _ => tracks_pure ()

theorem tracks_passExponent :
    Tracks passExponent text rest depth depth (.ok ((), (Numeral.exponentPart rest).rest)) := by
  rcases exists_cons_or isPower rest with ⟨c, rest, rfl, hc⟩ | hnone
  · have hwidth : c.utf8Size = 1 := by
      simp only [isPower, Bool.or_eq_true, beq_iff_eq] at hc
      rcases hc with rfl | rfl <;> rfl
    rw [(Numeral.exponentPart_cons hc rest).2]
    refine .bind_ok (tracks_passIf_pos hc hwidth) fun _ => ?_
    exact .bind_ok tracks_passSign fun _ => tracks_passDigits
  · rw [Numeral.exponentPart_eq_nothing hnone]
    exact .bind_ok (tracks_passIf_neg hnone) fun _ => tracks_pure ()

theorem tracks_number (h : Literal.gap rest = .ok (.nothing () rest)) :
    Tracks number text rest depth depth ((Literal.number rest).map Taken.parts) := by
  rw [number_eq]
  refine .bind_ok (tracks_gap.ok h) fun hstart => .bind_ok tracks_offset fun _ => ?_
  refine .bind_ok tracks_passSign fun hbehind => .bind_ok tracks_offset fun _ => ?_
  refine .bind_ok tracks_passDigits fun _ => .bind_ok tracks_passFraction fun _ => ?_
  refine .bind_ok tracks_passExponent fun _ => .bind_ok tracks_offset fun _ => ?_
  refine .bind_ok (tracks_between hstart (Numeral.front_append_behind rest)) fun _ => ?_
  refine .bind_ok (tracks_between hbehind (Numeral.rest_signPart rest).symm) fun _ => ?_
  by_cases hdigits : (Numeral.front rest).unsigned = [] ∨ (Numeral.front rest).unsigned = ['.']
  · rw [if_pos hdigits, if_pos hdigits]
    exact tracks_refuseAt rest _
  · rw [if_neg hdigits, if_neg hdigits, convert_cut rest fun hempty => hdigits (.inl hempty)]
    cases (Numeral.front rest).number with
    | ok n => exact tracks_pure n
    | error cause => exact tracks_refuseAt rest cause

theorem tracks_word {c : Char} (hc : isWordStart c = true) :
    Tracks word text (c :: rest) depth depth (.ok (Literal.word c rest).parts) := by
  have hpart : isWordPart c = true := by
    simp only [isWordStart, isWordPart, Bool.or_eq_true] at hc ⊢
    rcases hc with (hletter | hlow) | hdollar
    · exact .inl (.inl (.inl hletter))
    · exact .inl (.inr hlow)
    · exact .inr hdollar
  have hpass : Tracks (passWhile isWordPart Char.utf8Size) text (c :: rest) depth depth _ :=
    tracks_passWhile fun _ _ => rfl
  rw [List.dropWhile_cons_of_pos hpart] at hpass
  refine .bind_ok tracks_offset fun hstart => .bind_ok hpass fun _ => .bind_ok tracks_offset fun _ => ?_
  exact tracks_between hstart (congrArg (c :: ·) List.takeWhile_append_dropWhile)

end Walk

end StateScript.Literal
