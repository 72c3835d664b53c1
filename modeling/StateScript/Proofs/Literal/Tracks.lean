/-
What a walk reads off a text is what a reader of lists of characters takes off the rest of it. `Tracks` relates
the two: from where so much is left to read the walk comes to where the reader leaves its rest, with the same
value and so many containers open, or it refuses the text with the message of the reader's failure. So a walk
that tracks a reader meets no fault, and stands at the edge of a character behind each of its steps. A loop tracks
a reader if each of its rounds does, which either ends the loop or goes on where less is left.
-/
import StateScript.Proofs.Literal.Gap
import StateScript.Proofs.Literal.Walk
import Mathlib.Data.List.Infix

namespace StateScript

variable {α β σ : Type} {text rest left : List Char} {depth depth' : Nat}

namespace Text

def Taken.parts (taken : Taken α text) : α × List Char := (taken.value, taken.rest)

def Reached.parts (reached : Reached α text) : α × List Char := (reached.value, reached.rest)

/-- Of two ends of a text the one of fewer characters has fewer bytes. -/
theorem byteCount_lt_of_suffix (hleft : left <:+ text) (hrest : rest <:+ text) (h : left.length < rest.length) :
    byteCount left < byteCount rest ∧ byteCount rest ≤ byteCount text := by
  obtain ⟨front, rfl⟩ := List.suffix_of_suffix_length_le hleft hrest (Nat.le_of_lt h)
  obtain ⟨before, rfl⟩ := hrest
  rcases front with _ | ⟨c, front⟩
  · exact absurd h (Nat.lt_irrefl _)
  · have hc := c.utf8Size_pos
    simp only [List.cons_append, byteCount_cons, byteCount_append]
    omega

end Text

namespace Literal

open Text

/-- Where a walk over a text stands when so much is left to read. -/
def Cursor.before (text rest : List Char) (depth : Nat) : Cursor := ⟨byteCount text - byteCount rest, depth⟩

/-! ## Gaps of lists -/

theorem lineRest_of_not_mem (h : '\n' ∉ text) : (lineRest text).rest = [] := by
  induction text with
  | nil => rfl
  | cons c text ih =>
    obtain ⟨hc, htext⟩ := List.ne_and_not_mem_of_not_mem_cons h
    rw [lineRest, if_neg (Ne.symm hc)]
    exact ih htext

theorem commentRest?_eq_none (h : ¬ ['*', '/'] <:+: text) : commentRest? text = none := by
  induction text with
  | nil => rfl
  | cons c text ih =>
    rw [commentRest?, ih fun hin => h (List.infix_cons hin)]
    · rfl
    · rintro rest rfl rfl
      exact h ⟨[], rest, rfl⟩

theorem gap_dropWhile (text : List Char) :
    (gap (text.dropWhile isBlank)).map Reached.parts = (gap text).map Reached.parts := by
  induction text with
  | nil => rfl
  | cons c text ih =>
    by_cases hc : isBlank c = true
    · have hslash : c ≠ '/' := ne_of_isBlank hc (by decide)
      rw [List.dropWhile_cons_of_pos hc, ih, gap.eq_4 c text (fun _ h _ => hslash h) (fun _ h _ => hslash h), if_pos hc]
      cases gap text <;> rfl
    · rw [List.dropWhile_cons_of_neg hc]

theorem gap_line (text : List Char) :
    (gap ('/' :: '/' :: text)).map Reached.parts = (gap (lineRest text).rest).map Reached.parts := by
  rw [gap]
  cases gap (lineRest text).rest <;> rfl

theorem gap_comment {comment : Reached Unit text} (h : commentRest? text = some comment) :
    (gap ('/' :: '*' :: text)).map Reached.parts = (gap comment.rest).map Reached.parts := by
  rw [gap]
  simp only [h]
  cases gap comment.rest <;> rfl

/-- What is left behind the opening of a comment and the comment. -/
def behindComment (text : List Char) : Except Failure (Unit × List Char) :=
  match commentRest? text with
  | some comment => .ok ((), comment.rest)
  | none => .error ⟨.unterminatedComment, '/' :: '*' :: text⟩

theorem gap_unterminated (h : commentRest? text = none) :
    gap ('/' :: '*' :: text) = .error ⟨.unterminatedComment, '/' :: '*' :: text⟩ := by
  rw [gap]
  simp only [h]

theorem gap_behindComment (text : List Char) :
    (gap ('/' :: '*' :: text)).map Reached.parts =
      (behindComment text).bind fun front => (gap front.2).map Reached.parts := by
  unfold behindComment
  cases h : commentRest? text with
  | none => exact congrArg _ (gap_unterminated h)
  | some comment => exact gap_comment h

theorem behindComment_notLonger {a : Unit} (h : behindComment text = .ok (a, left)) :
    left.length ≤ text.length := by
  unfold behindComment at h
  split at h
  · next comment _ =>
    cases h
    exact comment.notLonger
  · cases h

theorem gap_eq_nothing (hblank : ∀ c, text.head? = some c → isBlank c = false) (hline : ¬ ['/', '/'] <+: text)
    (hcomment : ¬ ['/', '*'] <+: text) : gap text = .ok (.nothing () text) := by
  rcases text with _ | ⟨c, text⟩
  · rw [gap]
  · rw [gap.eq_4, hblank c rfl]
    · rfl
    · rintro rest rfl rfl
      exact hline ⟨rest, rfl⟩
    · rintro rest rfl rfl
      exact hcomment ⟨rest, rfl⟩

theorem gap_of_parts (h : (gap text).map Reached.parts = .ok ((), left)) : gap left = .ok (.nothing () left) := by
  induction text using gap.induct with
  | case1 =>
    have hgap : gap [] = .ok (.nothing () []) := by rw [gap]
    rw [hgap] at h
    cases h
    exact hgap
  | case2 text line ih => exact ih ((gap_line text).symm.trans h)
  | case3 text hnone =>
    rw [gap_unterminated hnone] at h
    cases h
  | case4 text comment hsome ih => exact ih ((gap_comment hsome).symm.trans h)
  | case5 c text hline hcomment hblank ih =>
    rw [gap.eq_4 c text hline hcomment, if_pos hblank] at h
    refine ih (Eq.trans ?_ h)
    cases gap text <;> rfl
  | case6 c text hline hcomment hblank =>
    have hgap : gap (c :: text) = .ok (.nothing () (c :: text)) := by
      rw [gap.eq_4 c text hline hcomment, if_neg hblank]
    rw [hgap] at h
    cases h
    exact hgap

/-- No gap goes on behind a gap. -/
theorem gap_of_gap {before : Reached Unit text} (h : gap text = .ok before) :
    gap before.rest = .ok (.nothing () before.rest) :=
  gap_of_parts (congrArg (Except.map Reached.parts) h)

namespace Walk

theorem outcome_bind (walk : Walk α) (f : α → Walk β) (text : List Char) (cursor : Cursor) :
    outcome (walk >>= f) text cursor = match outcome walk text cursor with
      | .ok (a, next) => outcome (f a) text next
      | .error halt => .error halt := by
  show (outcome walk text cursor).bind _ = _
  rcases outcome walk text cursor with halt | ⟨a, next⟩ <;> rfl

/-- From before the rest, with so many containers open, the walk has the result of a reader. -/
def Tracks (walk : Walk α) (text rest : List Char) (depth depth' : Nat)
    (result : Except Failure (α × List Char)) : Prop :=
  rest <:+ text →
    match result with
    | .ok (a, left) => left <:+ text ∧
        walk.outcome text (.before text rest depth) = .ok (a, .before text left depth')
    | .error failure =>
        walk.outcome text (.before text rest depth) = .error (.refusal (failure.message text))

theorem Tracks.bind_ok {walk : Walk α} {f : α → Walk β} {a : α} {between : Nat}
    {result : Except Failure (β × List Char)}
    (h : Tracks walk text rest depth between (.ok (a, left)))
    (hf : left <:+ text → Tracks (f a) text left between depth' result) :
    Tracks (walk >>= f) text rest depth depth' result := by
  intro hrest
  obtain ⟨hleft, hwalk⟩ := h hrest
  have hbind : outcome (walk >>= f) text (.before text rest depth) =
      outcome (f a) text (.before text left between) := by
    rw [outcome_bind, hwalk]
  rw [hbind]
  exact hf hleft hleft

theorem Tracks.bind_error {walk : Walk α} {f : α → Walk β} {between : Nat} {failure : Failure}
    (h : Tracks walk text rest depth between (.error failure)) :
    Tracks (walk >>= f) text rest depth depth' (.error failure) := by
  intro hrest
  show outcome (walk >>= f) text (.before text rest depth) = _
  rw [outcome_bind, h hrest]

theorem Tracks.ok {ρ : Type} {walk : Walk α} {result : Except Failure ρ} {parts : ρ → α × List Char} {r : ρ}
    (h : Tracks walk text rest depth depth' (result.map parts)) (hr : result = .ok r) :
    Tracks walk text rest depth depth' (.ok (parts r)) := by
  rwa [hr] at h

theorem Tracks.error {ρ : Type} {walk : Walk α} {result : Except Failure ρ} {parts : ρ → α × List Char}
    {failure : Failure} (h : Tracks walk text rest depth depth' (result.map parts)) (hr : result = .error failure) :
    Tracks walk text rest depth depth' (.error failure) := by
  rwa [hr] at h

theorem tracks_pure (a : α) : Tracks (pure a) text rest depth depth (.ok (a, rest)) := fun h => ⟨h, rfl⟩

theorem map_map {ε ρ σ : Type} (result : Except ε ρ) (g : ρ → σ) (parts : σ → β) :
    (result.map g).map parts = result.map (parts ∘ g) := by
  cases result <;> rfl

/-- What is made of the value of a walk is made of the value that it tracks. -/
theorem Tracks.map {walk : Walk α} {result : Except Failure (α × List Char)} (f : α → β)
    (h : Tracks walk text rest depth depth' result) :
    Tracks (do return f (← walk)) text rest depth depth' (result.map fun front => (f front.1, front.2)) := by
  cases result with
  | error failure => exact .bind_error h
  | ok front => exact .bind_ok h fun _ => tracks_pure (f front.1)

theorem Tracks.map_parts {ρ : Type} {walk : Walk α} {result : Except Failure ρ} {parts : ρ → α × List Char}
    {parts' : ρ → β × List Char} (f : α → β) (h : Tracks walk text rest depth depth' (result.map parts))
    (hparts : ∀ r, parts' r = (f (parts r).1, (parts r).2)) :
    Tracks (do return f (← walk)) text rest depth depth' (result.map parts') := by
  have hmap := h.map f
  rwa [map_map, show (fun front => (f front.1, front.2)) ∘ parts = parts' from funext fun r => (hparts r).symm] at hmap

/-! ## Offsets -/

theorem tracks_whole : Tracks whole text rest depth depth (.ok (text, rest)) := fun h => ⟨h, rfl⟩

theorem tracks_offset : Tracks offset text rest depth depth (.ok (byteCount text - byteCount rest, rest)) :=
  fun h => ⟨h, rfl⟩

theorem tracks_refuseAt (start : List Char) (cause : Cause) :
    Tracks (α := α) (refuseAt (byteCount text - byteCount start) cause) text rest depth depth'
      (.error ⟨cause, start⟩) :=
  fun _ => rfl

theorem tracks_refuse (cause : Cause) : Tracks (α := α) (refuse cause) text rest depth depth' (.error ⟨cause, rest⟩) :=
  fun _ => rfl

theorem tracks_moveTo (h : left <:+ text) :
    Tracks (moveTo (byteCount text - byteCount left)) text rest depth depth (.ok ((), left)) :=
  fun _ => ⟨h, rfl⟩

theorem tracks_move (front : List Char) {bytes : Nat} (h : byteCount front = bytes) :
    Tracks (move bytes) text (front ++ left) depth depth (.ok ((), left)) := by
  rintro ⟨before, rfl⟩
  -- what is left is an end of the text, so that the difference of bytes is no less than what stands before it
  have hoffset : byteCount (before ++ (front ++ left)) - byteCount (front ++ left) + bytes =
      byteCount (before ++ (front ++ left)) - byteCount left := by
    simp only [byteCount_append]
    omega
  refine ⟨⟨before ++ front, List.append_assoc _ _ _⟩, ?_⟩
  exact congrArg (fun n => Except.ok ((), Cursor.mk n depth)) hoffset

theorem tracks_move_one {c : Char} (h : c.utf8Size = 1) :
    Tracks (move 1) text (c :: left) depth depth (.ok ((), left)) :=
  tracks_move [c] (by rw [byteCount_cons, h]; rfl)

/-- The walk has moved on where the text that is left is shorter. -/
theorem tracks_advanced {start : List Char} (hstart : start <:+ text) (h : rest.length < start.length) :
    Tracks (advanced (byteCount text - byteCount start)) text rest depth depth (.ok ((), rest)) := by
  unfold advanced
  refine .bind_ok tracks_offset fun hrest => ?_
  have := byteCount_lt_of_suffix hrest hstart h
  rw [if_pos (by omega)]
  exact tracks_pure ()

/-! ## Loops -/

/-- A round of a loop tracks the result of the whole loop: it goes on where less is left and the result is the same,
or it ends the loop with the result. -/
inductive RoundTracks (round : σ → Walk (Round σ β)) (result : σ → List Char → Except Failure (β × List Char))
    (text : List Char) (depth depth' : Nat) (state : σ) (rest : List Char) : Prop where
  | again (state' : σ) {left : List Char} (hless : left.length < rest.length)
    (hresult : result state rest = result state' left)
    (h : Tracks (round state) text rest depth depth (.ok (.again state', left)))
  | done {value : β} {left : List Char} (hresult : result state rest = .ok (value, left))
    (h : Tracks (round state) text rest depth depth' (.ok (.done value, left)))
  | error {failure : Failure} (hresult : result state rest = .error failure)
    (h : Tracks (round state) text rest depth depth' (.error failure))

/-- A round goes on with what is made of the value that it tracks. -/
theorem RoundTracks.step {round : σ → Walk (Round σ β)} {result : σ → List Char → Except Failure (β × List Char)}
    {state : σ} {front : Except Failure (α × List Char)} (next : α → σ)
    (hresult : result state rest = front.bind fun front => result (next front.1) front.2)
    (hless : ∀ a left, front = .ok (a, left) → left.length < rest.length)
    (h : Tracks (round state) text rest depth depth (front.map fun front => (.again (next front.1), front.2))) :
    RoundTracks round result text depth depth' state rest := by
  cases front with
  | error failure => exact .error hresult h
  | ok front => exact .again (next front.1) (hless front.1 front.2 rfl) hresult h

/-- By induction on what is left, of which each round that goes on leaves less. -/
theorem tracks_loop {round : σ → Walk (Round σ β)} {result : σ → List Char → Except Failure (β × List Char)}
    (h : ∀ state rest, RoundTracks round result text depth depth' state rest) (state : σ) (rest : List Char) :
    Tracks (loop round state) text rest depth depth' (result state rest) := by
  induction hlen : rest.length using Nat.strongRecOn generalizing state rest with
  | ind n ih =>
    subst hlen
    intro hrest
    have hloop : (loop round state).outcome text (.before text rest depth) =
        rounds round text state (.before text rest depth) := rfl
    rw [rounds.eq_1] at hloop
    cases h state rest with
    | @again state' left hless hresult hround =>
      obtain ⟨hleft, hround⟩ := hround hrest
      have hwithin : ¬ byteCount text < (Cursor.before text left depth).offset := Nat.not_lt.2 (Nat.sub_le ..)
      have hmoved : ¬ (Cursor.before text left depth).offset ≤ (Cursor.before text rest depth).offset := by
        have := byteCount_lt_of_suffix hleft hrest hless
        show ¬ byteCount text - byteCount left ≤ byteCount text - byteCount rest
        omega
      rw [hround] at hloop
      dsimp only at hloop
      rw [if_neg hwithin, if_neg hmoved] at hloop
      rw [hresult, hloop]
      exact ih _ hless state' left rfl hleft
    | done hresult hround =>
      obtain ⟨hleft, hround⟩ := hround hrest
      rw [hround] at hloop
      rw [hresult]
      exact ⟨hleft, hloop⟩
    | error hresult hround =>
      rw [hround hrest] at hloop
      rw [hresult]
      exact hloop

/-! ## Cuts -/

theorem tracks_cut (front back : List Char) {bytes : Nat} (h : byteCount front = bytes) :
    Tracks (cut bytes (front ++ back)) text rest depth depth (.ok ((front, back), rest)) := by
  subst h
  unfold cut
  rw [splitBytes?_byteCount]
  exact tracks_pure _

/-- A cut is a fault unless one of the fronts of the piece has so many bytes. -/
theorem outcome_cut_eq_fault_iff {offset : Nat} {piece : List Char} {cursor : Cursor} :
    (cut offset piece).outcome text cursor = .error (.fault (.cut offset)) ↔
      ¬ ∃ front back, piece = front ++ back ∧ byteCount front = offset := by
  unfold cut
  constructor
  · rintro h ⟨front, back, rfl, rfl⟩
    rw [splitBytes?_byteCount] at h
    cases h
  · intro h
    cases hsplit : splitBytes? offset piece with
    | none => rfl
    | some parts => exact absurd ⟨parts.1, parts.2, splitBytes?_eq_some hsplit⟩ h

/-- Inside of a character there is no cut. -/
example : (cut 1 ['é']).outcome ['é'] ⟨0, 0⟩ = .error (.fault (.cut 1)) := rfl

/-- A text is cut where one of its ends begins. -/
theorem tracks_cut_whole (front rest : List Char) :
    Tracks (cut (byteCount (front ++ rest) - byteCount rest) (front ++ rest)) text left depth depth
      (.ok ((front, rest), left)) :=
  tracks_cut front rest (by rw [byteCount_append, Nat.add_sub_cancel])

theorem tracks_remaining : Tracks remaining text rest depth depth (.ok (rest, rest)) := by
  unfold remaining
  refine .bind_ok tracks_offset fun hrest => .bind_ok tracks_whole fun _ => ?_
  obtain ⟨front, rfl⟩ := hrest
  exact .bind_ok (tracks_cut_whole front rest) fun _ => tracks_pure _

theorem tracks_between {start piece : List Char} (hstart : start <:+ text) (h : piece ++ rest = start) :
    Tracks (between (byteCount text - byteCount start) (byteCount text - byteCount rest)) text rest depth depth
      (.ok (piece, rest)) := by
  subst h
  obtain ⟨before, rfl⟩ := hstart
  have hfront : byteCount before = byteCount (before ++ piece ++ rest) - byteCount (piece ++ rest) := by
    rw [List.append_assoc, byteCount_append, Nat.add_sub_cancel]
  have hstop : byteCount (before ++ piece) = byteCount (before ++ piece ++ rest) - byteCount rest := by
    rw [byteCount_append _ rest, Nat.add_sub_cancel]
  rw [← List.append_assoc]
  refine .bind_ok tracks_whole fun _ => ?_
  refine .bind_ok (tracks_cut (before ++ piece) rest hstop) fun _ => ?_
  exact .bind_ok (tracks_cut before piece hfront) fun _ => tracks_pure _

theorem tracks_peekChar : Tracks peekChar text rest depth depth (.ok (rest.head?, rest)) :=
  .bind_ok tracks_remaining fun _ => tracks_pure _

theorem tracks_bump_cons (c : Char) : Tracks bump text (c :: rest) depth depth (.ok (some c, rest)) := by
  refine .bind_ok tracks_peekChar fun _ => ?_
  exact .bind_ok (tracks_move [c] rfl) fun _ => tracks_pure _

theorem tracks_bump_nil : Tracks bump text [] depth depth (.ok (none, [])) :=
  .bind_ok tracks_peekChar fun _ => tracks_pure _

theorem tracks_passIf_pos {p : Char → Bool} {c : Char} (hp : p c = true) (hwidth : c.utf8Size = 1) :
    Tracks (passIf p) text (c :: rest) depth depth (.ok (true, rest)) := by
  refine .bind_ok tracks_peekChar fun _ => ?_
  rw [if_pos (by simpa using hp)]
  exact .bind_ok (tracks_move_one hwidth) fun _ => tracks_pure _

theorem tracks_passIf_neg {p : Char → Bool} (hp : ∀ c, rest.head? = some c → p c = false) :
    Tracks (passIf p) text rest depth depth (.ok (false, rest)) := by
  refine .bind_ok tracks_peekChar fun _ => ?_
  rw [if_neg (by cases rest <;> simp_all)]
  exact tracks_pure _

theorem tracks_passRound {p : Char → Bool} {width : Char → Nat} (hwidth : ∀ c, p c = true → width c = c.utf8Size) :
    RoundTracks (fun _ => passRound p width) (fun _ rest => .ok ((), rest.dropWhile p)) text depth depth () rest := by
  rcases rest with _ | ⟨c, rest⟩
  · exact .done rfl (.bind_ok tracks_peekChar fun _ => tracks_pure _)
  · by_cases hc : p c = true
    · refine .again () (Nat.lt_succ_self _) ?_ (.bind_ok tracks_peekChar fun _ => ?_)
      · rw [List.dropWhile_cons_of_pos hc]
      · simp only [List.head?_cons, if_pos hc]
        exact .bind_ok (tracks_move [c] (hwidth c hc).symm) fun _ => tracks_pure _
    · refine .done (congrArg (fun left => Except.ok ((), left)) (List.dropWhile_cons_of_neg hc)) ?_
      refine .bind_ok tracks_peekChar fun _ => ?_
      simp only [List.head?_cons, if_neg hc]
      exact tracks_pure _

theorem tracks_passWhile {p : Char → Bool} {width : Char → Nat} (hwidth : ∀ c, p c = true → width c = c.utf8Size) :
    Tracks (passWhile p width) text rest depth depth (.ok ((), rest.dropWhile p)) :=
  tracks_loop (fun _ _ => tracks_passRound hwidth) () rest

/-! ## Searches -/

theorem find?_eq_some {pattern : List Char} (hpattern : pattern ≠ []) {n : Nat} (h : find? pattern text = some n) :
    ∃ front rest, text = front ++ (pattern ++ rest) ∧ byteCount front = n ∧ ¬ pattern <:+: front := by
  induction text generalizing n with
  | nil => cases h
  | cons c text ih =>
    rw [find?] at h
    split at h
    · next hprefix =>
      obtain ⟨rest, hrest⟩ := List.isPrefixOf_iff_prefix.1 hprefix
      cases h
      exact ⟨[], rest, hrest.symm, rfl, fun hin => hpattern (List.infix_nil.1 hin)⟩
    · next hprefix =>
      obtain ⟨m, hm, rfl⟩ := Option.map_eq_some_iff.1 h
      obtain ⟨front, rest, rfl, rfl, hfront⟩ := ih hm
      refine ⟨c :: front, rest, rfl, rfl, fun hin => ?_⟩
      rcases List.infix_cons_iff.1 hin with hhere | hin
      · exact hprefix (List.isPrefixOf_iff_prefix.2 (hhere.trans (List.prefix_append (c :: front) _)))
      · exact hfront hin

theorem find?_eq_none {pattern : List Char} (hpattern : pattern ≠ []) (h : find? pattern text = none) :
    ¬ pattern <:+: text := by
  induction text with
  | nil => exact fun hin => hpattern (List.infix_nil.1 hin)
  | cons c text ih =>
    rw [find?] at h
    split at h
    · cases h
    · next hprefix =>
      intro hin
      rcases List.infix_cons_iff.1 hin with hhere | hin
      · exact hprefix (List.isPrefixOf_iff_prefix.2 hhere)
      · exact ih (Option.map_eq_none_iff.1 h) hin

theorem find?_singleton_eq_some {c : Char} {n : Nat} (h : find? [c] text = some n) :
    ∃ front rest, text = front ++ c :: rest ∧ byteCount front = n ∧ c ∉ front := by
  obtain ⟨front, rest, htext, hcount, hfront⟩ := find?_eq_some (List.cons_ne_nil c []) h
  exact ⟨front, rest, htext, hcount, fun hc => hfront ((List.singleton_infix_iff c front).2 hc)⟩

theorem not_mem_of_find?_eq_none {c : Char} (h : find? [c] text = none) : c ∉ text := fun hc =>
  find?_eq_none (List.cons_ne_nil c []) h ((List.singleton_infix_iff c text).2 hc)

/-! ## Gaps -/

theorem tracks_passLine : Tracks passLine text rest depth depth (.ok ((), (lineRest rest).rest)) := by
  refine .bind_ok tracks_remaining fun _ => ?_
  cases hfind : find? ['\n'] rest with
  | some n =>
    obtain ⟨body, more, rfl, rfl, hbody⟩ := find?_singleton_eq_some hfind
    obtain ⟨_, hline⟩ := lineRest_append hbody more
    have hrest : (lineRest (body ++ '\n' :: more)).rest = more := congrArg Reached.rest hline
    rw [hrest, List.append_cons]
    exact tracks_move _ (byteCount_append _ _)
  | none =>
    rw [lineRest_of_not_mem (not_mem_of_find?_eq_none hfind)]
    exact .bind_ok tracks_whole fun _ => tracks_moveTo List.nil_suffix

theorem tracks_passComment :
    Tracks passComment text ('/' :: '*' :: rest) depth depth (behindComment rest) := by
  unfold behindComment
  refine .bind_ok tracks_remaining fun _ => .bind_ok (tracks_cut ['/', '*'] rest rfl) fun _ => ?_
  dsimp only
  cases hfind : find? ['*', '/'] rest with
  | some n =>
    obtain ⟨body, more, rfl, rfl, hbody⟩ := find?_eq_some (by decide) hfind
    obtain ⟨_, hcomment⟩ := commentRest?_append hbody more
    have hrest : commentRest? (body ++ (['*', '/'] ++ more)) = some ⟨(), more, _⟩ := hcomment
    have hfront : '/' :: '*' :: (body ++ (['*', '/'] ++ more)) = '/' :: '*' :: (body ++ ['*', '/']) ++ more := by
      simp only [List.cons_append, List.append_assoc]
    rw [hrest, hfront]
    refine tracks_move _ ?_
    have hwidth : '/'.utf8Size = 1 ∧ '*'.utf8Size = 1 := ⟨rfl, rfl⟩
    simp only [byteCount_cons, byteCount_append, byteCount_nil, hwidth]
    omega
  | none =>
    rw [commentRest?_eq_none (find?_eq_none (by decide) hfind)]
    exact tracks_refuse _

/-- Behind the blanks a comment goes on with the gap, or nothing does. -/
theorem tracks_gapRound :
    RoundTracks (fun _ => gapRound) (fun _ rest => (Literal.gap rest).map Reached.parts) text depth depth () rest := by
  have hpass : Tracks (passWhile isBlank Char.utf8Size) text rest depth depth (.ok ((), rest.dropWhile isBlank)) :=
    tracks_passWhile fun _ _ => rfl
  have hdrop := gap_dropWhile rest
  have hshort : (rest.dropWhile isBlank).length ≤ rest.length := (List.dropWhile_sublist isBlank).length_le
  have hblank : ∀ c, (rest.dropWhile isBlank).head? = some c → isBlank c = false := fun c => head?_trimStart
  generalize rest.dropWhile isBlank = b at hpass hdrop hshort hblank
  by_cases hline : ['/', '/'] <+: b
  · obtain ⟨t, rfl⟩ := hline
    have hless : (lineRest t).rest.length < rest.length := by
      have := (lineRest t).notLonger
      simp only [List.cons_append, List.nil_append, List.length_cons] at hshort
      omega
    refine .again () hless (hdrop.symm.trans (gap_line t)) (.bind_ok hpass fun _ => ?_)
    refine .bind_ok tracks_remaining fun _ => ?_
    have hrest : (lineRest (['/', '/'] ++ t)).rest = (lineRest t).rest := rfl
    rw [if_pos (List.isPrefixOf_iff_prefix.2 (List.prefix_append _ t))]
    exact .bind_ok (hrest ▸ tracks_passLine) fun _ => tracks_pure _
  · have hline' : ['/', '/'].isPrefixOf b ≠ true := by rwa [ne_eq, List.isPrefixOf_iff_prefix]
    by_cases hcomment : ['/', '*'] <+: b
    · have hcomment' : ['/', '*'].isPrefixOf b = true := List.isPrefixOf_iff_prefix.2 hcomment
      obtain ⟨t, rfl⟩ := hcomment
      have hless : ∀ (a : Unit) left, behindComment t = .ok (a, left) → left.length < rest.length := fun _ left h => by
        have := behindComment_notLonger h
        simp only [List.cons_append, List.nil_append, List.length_cons] at hshort
        omega
      refine .step id (hdrop.symm.trans (gap_behindComment t)) hless (.bind_ok hpass fun _ => ?_)
      refine .bind_ok tracks_remaining fun _ => ?_
      rw [if_neg hline']
      refine .bind_ok tracks_remaining fun _ => ?_
      rw [if_pos hcomment']
      exact tracks_passComment.map Round.again
    · refine .done (hdrop.symm.trans (congrArg _ (gap_eq_nothing hblank hline hcomment))) (.bind_ok hpass fun _ => ?_)
      refine .bind_ok tracks_remaining fun _ => ?_
      rw [if_neg hline']
      refine .bind_ok tracks_remaining fun _ => ?_
      rw [if_neg (by rwa [List.isPrefixOf_iff_prefix])]
      exact tracks_pure _

theorem tracks_gap : Tracks gap text rest depth depth ((Literal.gap rest).map Reached.parts) :=
  tracks_loop (fun _ _ => tracks_gapRound) () rest

theorem tracks_peek_ok {before : Reached Unit rest} (h : Literal.gap rest = .ok before) :
    Tracks peek text rest depth depth (.ok (before.rest.head?, before.rest)) :=
  .bind_ok (tracks_gap.ok h) fun _ => tracks_peekChar

theorem tracks_peek_error {failure : Failure} (h : Literal.gap rest = .error failure) :
    Tracks peek text rest depth depth (.error failure) :=
  .bind_error (tracks_gap.error h)

theorem tracks_expect (c : Char) :
    Tracks (expect c) text rest depth depth ((Literal.expect c rest).map Taken.parts) := by
  unfold Literal.expect
  cases hgap : Literal.gap rest with
  | error failure => exact .bind_error (tracks_peek_error hgap)
  | ok before =>
    refine .bind_ok (tracks_peek_ok hgap) fun _ => ?_
    obtain ⟨_, b, _⟩ := before
    by_cases hhead : b.head? = some c
    · obtain ⟨more, rfl⟩ := List.head?_eq_some_iff.1 hhead
      simp only [bind, Except.bind, front?_cons]
      rw [if_pos hhead]
      exact tracks_move [c] rfl
    · simp only [bind, Except.bind, front?_eq_none hhead]
      rw [if_neg hhead]
      exact tracks_refuse _

end Walk

end Literal

end StateScript
