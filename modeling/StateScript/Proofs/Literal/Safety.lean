/-
Reading in place is safe. A walk over any text ends, meets no fault, and gives what the reader of lists of
characters gives: the value of the text, or the message with which it is refused.

An operand is followed by recursion on the containers that may still nest, and the elements of a container by
induction on the text that is left, of which each round of their loop leaves less.
-/
import StateScript.Proofs.Literal.Tokens

namespace StateScript.Literal

open Text

variable {α β : Type} {text rest : List Char} {depth : Nat}

/-! ## Elements of lists -/

/-- What a reader of elements took, folded to those read before. -/
def foldParts (add : β → α → β) (read : β) (parts : List α × List Char) : β × List Char :=
  (parts.1.foldl add read, parts.2)

/-- The text behind a separator. A closing mark may stand for it, and is left. -/
def afterElement (close : Char) (ended : Cause) : List Char → Except Failure (List Char)
  | [] => .error ⟨ended, []⟩
  | c :: rest =>
    if c = ',' then .ok rest
    else if c = close then .ok (c :: rest)
    else .error ⟨.missingSeparator close c, c :: rest⟩

theorem afterElement_notLonger {close : Char} {ended : Cause} {left : List Char}
    (h : afterElement close ended text = .ok left) : left.length ≤ text.length := by
  unfold afterElement at h
  split at h
  · cases h
  · split at h
    · cases h
      exact Nat.le_succ _
    · split at h
      · cases h
        exact Nat.le_refl _
      · cases h

section

variable {close : Char} {ended : Cause} {element : (text : List Char) → Except Failure (Taken α text)}

variable (ended element) in
theorem elements_closed {before : Reached Unit text} (hbefore : gap text = .ok before)
    (hclose : before.rest = close :: rest) : (elements close ended element text).map Taken.parts = .ok ([], rest) := by
  obtain ⟨_, b, _⟩ := before
  obtain rfl : b = close :: rest := hclose
  rw [elements, hbefore]
  simp only [bind, Except.bind, front?_cons]
  rfl

variable (close ended element) in
/-- The first element and its separator. -/
def firstElement (text : List Char) : Except Failure (α × List Char) := do
  let first ← element text
  let behind ← gap first.rest
  let left ← afterElement close ended behind.rest
  .ok (first.value, left)

theorem firstElement_shorter {a : α} {left : List Char} (h : firstElement close ended element text = .ok (a, left)) :
    left.length < text.length := by
  obtain ⟨first, -, h⟩ := exists_of_bind_eq_ok h
  obtain ⟨behind, -, h⟩ := exists_of_bind_eq_ok h
  obtain ⟨rest, hafter, h⟩ := exists_of_bind_eq_ok h
  cases h
  have hrest := afterElement_notLonger hafter
  have hbehind := behind.notLonger
  have hfirst := first.shorter
  omega

theorem elements_open {before : Reached Unit text} (hbefore : gap text = .ok before)
    (hclose : before.rest.head? ≠ some close) :
    (elements close ended element text).map Taken.parts =
      (firstElement close ended element before.rest).bind fun first =>
        ((elements close ended element first.2).map Taken.parts).map fun parts => (first.1 :: parts.1, parts.2) := by
  rw [elements, hbefore, firstElement]
  simp only [bind, Except.bind, front?_eq_none hclose]
  cases element before.rest with
  | error failure => rfl
  | ok first =>
    dsimp only
    cases hbehind : gap first.rest with
    | error failure => rfl
    | ok behind =>
      obtain ⟨_, b, _⟩ := behind
      dsimp only
      rcases b with _ | ⟨c, b⟩
      · rw [front?_eq_none (by simp), front?_eq_none (by simp)]
        rfl
      · by_cases hcomma : c = ','
        · subst hcomma
          simp only [front?_cons, afterElement, if_true]
          cases elements close ended element b <;> rfl
        · have hnone : (c :: b).head? ≠ some ',' := fun h => hcomma (Option.some.inj h)
          by_cases hc : c = close
          · subst hc
            -- the closing mark is read in a round of its own, which adds nothing
            have hmore : (elements c ended element (c :: b)).map Taken.parts = .ok ([], b) :=
              elements_closed ended element (gap_of_gap hbehind) rfl
            simp only [front?_eq_none hnone, front?_cons, afterElement, if_neg hcomma, if_true, hmore]
            rfl
          · have hnone' : (c :: b).head? ≠ some close := fun h => hc (Option.some.inj h)
            simp only [front?_eq_none hnone, front?_eq_none hnone', afterElement, if_neg hcomma, if_neg hc]
            rfl

end

namespace Walk

/-! ## Depth -/

theorem tracks_leave : Tracks leave text rest (depth + 1) depth (.ok ((), rest)) := fun h => ⟨h, rfl⟩

theorem tracks_modify_depth :
    Tracks (modify fun cursor => { cursor with depth := cursor.depth + 1 }) text rest depth (depth + 1)
      (.ok ((), rest)) :=
  fun h => ⟨h, rfl⟩

theorem tracks_get : Tracks get text rest depth depth (.ok (.before text rest depth, rest)) := fun h => ⟨h, rfl⟩

theorem tracks_enter (h : depth < maxDepth) : Tracks enter text rest depth (depth + 1) (.ok ((), rest)) := by
  refine .bind_ok tracks_modify_depth fun _ => .bind_ok tracks_get fun _ => ?_
  have hdepth : ¬ maxDepth < (Cursor.before text rest (depth + 1)).depth := Nat.not_lt.2 h
  rw [if_neg hdepth]
  exact tracks_pure ()

theorem tracks_enter_deep (h : maxDepth ≤ depth) :
    Tracks enter text rest depth (depth + 1) (.error ⟨.tooDeep maxDepth, rest⟩) := by
  refine .bind_ok tracks_modify_depth fun _ => .bind_ok tracks_get fun _ => ?_
  have hdepth : maxDepth < (Cursor.before text rest (depth + 1)).depth := Nat.lt_succ_of_le h
  rw [if_pos hdepth]
  exact tracks_refuse _

/-! ## Elements -/

theorem tracks_separator {close : Char} {ended : Cause} {behind : Reached Unit rest}
    (hgap : Literal.gap rest = .ok behind) :
    Tracks (separator close ended) text rest depth depth
      ((afterElement close ended behind.rest).map fun left => ((), left)) := by
  refine .bind_ok (tracks_peek_ok hgap) fun _ => ?_
  obtain ⟨_, b, _⟩ := behind
  rcases b with _ | ⟨c, b⟩
  · exact tracks_refuse _
  · unfold afterElement
    dsimp only [List.head?_cons]
    by_cases hcomma : c = ','
    · rw [if_pos hcomma, if_pos hcomma]
      subst hcomma
      exact tracks_move_one rfl
    · rw [if_neg hcomma, if_neg hcomma]
      by_cases hc : c = close
      · rw [if_pos hc, if_pos hc]
        exact tracks_pure ()
      · rw [if_neg hc, if_neg hc]
        exact tracks_refuse _

theorem tracks_separator_error {close : Char} {ended : Cause} {failure : Failure}
    (hgap : Literal.gap rest = .error failure) :
    Tracks (separator close ended) text rest depth depth (.error failure) :=
  .bind_error (tracks_peek_error hgap)

theorem tracks_closed {close : Char} (hwidth : close.utf8Size = 1) {before : Reached Unit rest} {left : List Char}
    (hgap : Literal.gap rest = .ok before) (hclose : before.rest = close :: left) :
    Tracks (closed close) text rest (depth + 1) depth (.ok (true, left)) := by
  have hpeek : Tracks peek text rest (depth + 1) (depth + 1) _ := tracks_peek_ok hgap
  rw [hclose] at hpeek
  refine .bind_ok hpeek fun _ => ?_
  rw [if_pos List.head?_cons]
  exact .bind_ok (tracks_move_one hwidth) fun _ => .bind_ok tracks_leave fun _ => tracks_pure true

theorem tracks_closed_error {close : Char} {failure : Failure} (hgap : Literal.gap rest = .error failure) :
    Tracks (closed close) text rest depth depth (.error failure) :=
  .bind_error (tracks_peek_error hgap)

theorem tracks_not_closed {close : Char} {before : Reached Unit rest} (hgap : Literal.gap rest = .ok before)
    (hclose : before.rest.head? ≠ some close) :
    Tracks (closed close) text rest depth depth (.ok (false, before.rest)) := by
  refine .bind_ok (tracks_peek_ok hgap) fun _ => ?_
  rw [if_neg hclose]
  exact tracks_pure false

/-- The walk has moved on behind what was taken off the text. -/
theorem tracks_nested {walk : Walk α} {result : Except Failure (Taken α rest)}
    (h : Tracks walk text rest depth depth (result.map Taken.parts)) :
    Tracks (nested walk) text rest depth depth (result.map Taken.parts) := by
  refine .bind_ok tracks_offset fun hstart => ?_
  cases result with
  | error failure => exact .bind_error h
  | ok taken =>
    exact .bind_ok h fun _ => .bind_ok (tracks_advanced hstart taken.shorter) fun _ => tracks_pure taken.value

section

variable {close : Char} {ended : Cause} (hwidth : close.utf8Size = 1) {walk : Walk α} {add : β → α → β}
  {element : (text : List Char) → Except Failure (Taken α text)}
  (helement : ∀ rest, Literal.gap rest = .ok (.nothing () rest) →
    Tracks walk text rest (depth + 1) (depth + 1) ((element rest).map Taken.parts))

include helement

theorem tracks_separated (hgap : Literal.gap rest = .ok (.nothing () rest)) :
    Tracks (separated close ended walk) text rest (depth + 1) (depth + 1) (firstElement close ended element rest) := by
  have hfirst := helement rest hgap
  unfold firstElement
  cases hf : element rest with
  | error failure => exact .bind_error (hfirst.error hf)
  | ok first =>
    refine .bind_ok (hfirst.ok hf) fun _ => ?_
    simp only [bind, Except.bind]
    cases hbehind : Literal.gap first.rest with
    | error failure => exact .bind_error (tracks_separator_error hbehind)
    | ok behind =>
      dsimp only
      cases hafter : afterElement close ended behind.rest with
      | error failure => exact .bind_error ((tracks_separator hbehind).error hafter)
      | ok left => exact .bind_ok ((tracks_separator hbehind).ok hafter) fun _ => tracks_pure first.value

include hwidth

/-- The elements behind those read before, to which each is added. -/
theorem tracks_elementsRound (read : β) :
    RoundTracks (elementsRound close ended walk add)
      (fun read rest => ((Literal.elements close ended element rest).map Taken.parts).map (foldParts add read))
      text (depth + 1) depth read rest := by
  cases hgap : Literal.gap rest with
  | error failure =>
    have hrefused : Literal.elements close ended element rest = .error failure := by
      rw [Literal.elements, hgap]
      rfl
    refine .error ?_ (.bind_error (tracks_closed_error hgap))
    rw [hrefused]
    rfl
  | ok before =>
    by_cases hclose : before.rest.head? = some close
    · obtain ⟨left, hleft⟩ := List.head?_eq_some_iff.1 hclose
      refine .done ?_ (.bind_ok (tracks_closed hwidth hgap hleft) fun _ => tracks_pure (Round.done read))
      exact congrArg _ (elements_closed ended element hgap hleft)
    · have hless : ∀ a left, firstElement close ended element before.rest = .ok (a, left) → left.length < rest.length :=
        fun _ _ h => Nat.lt_of_lt_of_le (firstElement_shorter h) before.notLonger
      refine .step (add read) ?_ hless (.bind_ok (tracks_not_closed hgap hclose) fun _ => ?_)
      · rw [elements_open hgap hclose]
        cases firstElement close ended element before.rest with
        | error failure => rfl
        | ok first => exact map_map ..
      · rw [if_neg (by decide)]
        exact (tracks_separated helement (gap_of_gap hgap)).map fun a => Round.again (add read a)

theorem tracks_elements (read : β) :
    Tracks (elements close ended walk add read) text rest (depth + 1) depth
      (((Literal.elements close ended element rest).map Taken.parts).map (foldParts add read)) :=
  tracks_loop (fun read _ => tracks_elementsRound hwidth helement read) read rest

end

/-! ## Operands -/

theorem tracks_key (hgap : Literal.gap rest = .ok (.nothing () rest)) :
    Tracks key text rest depth depth ((Literal.key rest).map Taken.parts) := by
  refine .bind_ok (tracks_peek_ok hgap) fun _ => ?_
  rcases rest with _ | ⟨c, rest⟩
  · exact tracks_refuse _
  · unfold Literal.key
    dsimp only [Reached.nothing, List.head?_cons]
    by_cases hquote : isQuote c = true
    · rw [if_pos hquote, if_pos hquote, map_map]
      exact (tracks_quoted hgap).map_parts String.ofList fun _ => rfl
    · rw [if_neg hquote, if_neg hquote]
      by_cases hstart : isWordStart c = true
      · rw [if_pos hstart, if_pos hstart]
        exact .bind_ok (tracks_word hstart) fun _ => tracks_pure _
      · rw [if_neg hstart, if_neg hstart]
        by_cases hnumber : c.isDigit = true ∨ c = '.'
        · rw [if_pos hnumber, if_pos hnumber, map_map]
          exact (tracks_number hgap).map_parts (fun n => String.ofList n.keyText) fun _ => rfl
        · rw [if_neg hnumber, if_neg hnumber]
          exact tracks_refuse _

theorem tracks_member {walk : Walk Operand} {operand : (text : List Char) → Except Failure (Taken Operand text)}
    (hoperand : ∀ rest, Tracks walk text rest depth depth ((operand rest).map Taken.parts))
    (hgap : Literal.gap rest = .ok (.nothing () rest)) :
    Tracks (member walk) text rest depth depth ((Literal.member operand rest).map Taken.parts) := by
  unfold Literal.member
  cases hname : Literal.key rest with
  | error failure => exact .bind_error ((tracks_key hgap).error hname)
  | ok name =>
    refine .bind_ok ((tracks_key hgap).ok hname) fun _ => ?_
    simp only [bind, Except.bind]
    cases hcolon : Literal.expect ':' name.rest with
    | error failure => exact .bind_error ((tracks_expect ':').error hcolon)
    | ok colon =>
      refine .bind_ok ((tracks_expect ':').ok hcolon) fun _ => ?_
      have hvalue := tracks_nested (hoperand colon.rest)
      dsimp only
      cases hv : operand colon.rest with
      | error failure => exact .bind_error (hvalue.error hv)
      | ok value => exact .bind_ok (hvalue.ok hv) fun _ => tracks_pure _

theorem tracks_scalar {c : Char} (hgap : Literal.gap (c :: rest) = .ok (.nothing () (c :: rest))) :
    Tracks (scalar c) text (c :: rest) depth depth ((Literal.scalar (c :: rest)).map Taken.parts) := by
  unfold Literal.scalar scalar
  dsimp only
  by_cases hquote : isQuote c = true
  · rw [if_pos hquote, if_pos hquote, map_map]
    exact (tracks_quoted hgap).map_parts (Operand.value ∘ Json.string ∘ String.ofList) fun _ => rfl
  · rw [if_neg hquote, if_neg hquote]
    by_cases hnumber : c = '-' ∨ c = '+' ∨ c = '.' ∨ c.isDigit = true
    · rw [if_pos hnumber, if_pos hnumber, map_map]
      exact (tracks_number hgap).map_parts (Operand.value ∘ Json.number) fun _ => rfl
    · rw [if_neg hnumber, if_neg hnumber]
      by_cases hstart : isWordStart c = true
      · rw [if_pos hstart, if_pos hstart]
        refine .bind_ok tracks_offset fun _ => .bind_ok (tracks_word hstart) fun _ => ?_
        cases keyword? (Literal.word c rest).value with
        | none => exact tracks_refuseAt (c :: rest) _
        | some v => exact tracks_pure v
      · rw [if_neg hstart, if_neg hstart]
        exact tracks_refuse _

theorem foldl_putDefined (entries : List (String × Operand)) (read : List (String × Json)) :
    entries.foldl putDefined read =
      (entries.filterMap fun (name, operand) => operand.json?.map (name, ·)).foldl
        (fun members (k, v) => Members.put k v members) read := by
  induction entries generalizing read with
  | nil => rfl
  | cons entry entries ih =>
    obtain ⟨name, v⟩ := entry
    rw [List.foldl_cons, ih, List.filterMap_cons, putDefined]
    cases v <;> rfl

theorem foldl_addItem (values : List Operand) (read : List Json) :
    values.foldl addItem read = read ++ values.map Operand.toJson := by
  induction values generalizing read with
  | nil => exact (List.append_nil read).symm
  | cons v values ih => rw [List.foldl_cons, ih, addItem, List.map_cons, List.append_assoc, List.singleton_append]

end Walk

section

variable {before : Reached Unit text} {budget : Nat}

theorem parts_operand_object (hgap : gap text = .ok before) (hbrace : before.rest = '\x7b' :: rest) :
    (operand (budget + 1) text).map Taken.parts =
      ((elements '\x7d' .unterminatedObject (member (operand budget)) rest).map Taken.parts).map fun parts =>
        (.value (.object (definedMembers parts.1)), parts.2) := by
  obtain ⟨_, b, _⟩ := before
  obtain rfl : b = '\x7b' :: rest := hbrace
  rw [operand, hgap]
  simp only [bind, Except.bind, front?_cons]
  cases elements '\x7d' .unterminatedObject (member (operand budget)) rest <;> rfl

theorem parts_operand_array (hgap : gap text = .ok before) (hbracket : before.rest = '[' :: rest) :
    (operand (budget + 1) text).map Taken.parts =
      ((elements ']' .unterminatedArray (operand budget) rest).map Taken.parts).map fun parts =>
        (.value (.array (parts.1.map Operand.toJson)), parts.2) := by
  obtain ⟨_, b, _⟩ := before
  obtain rfl : b = '[' :: rest := hbracket
  have hbrace : ('[' :: rest).head? ≠ some '\x7b' := fun h => by cases h
  rw [operand, hgap]
  simp only [bind, Except.bind, front?_eq_none hbrace, front?_cons]
  cases elements ']' .unterminatedArray (operand budget) rest <;> rfl

theorem operand_too_deep (hgap : gap text = .ok before) {c : Char} (hc : c = '\x7b' ∨ c = '[')
    (hrest : before.rest = c :: rest) : operand 0 text = .error ⟨.tooDeep maxDepth, rest⟩ := by
  obtain ⟨_, b, _⟩ := before
  obtain rfl : b = c :: rest := hrest
  rw [operand.eq_def, hgap]
  rcases hc with rfl | rfl
  · simp only [bind, Except.bind, front?_cons]
  · have hbrace : ('[' :: rest).head? ≠ some '\x7b' := fun h => by cases h
    simp only [bind, Except.bind, front?_eq_none hbrace, front?_cons]

theorem parts_operand_scalar (hgap : gap text = .ok before) (hbrace : before.rest.head? ≠ some '\x7b')
    (hbracket : before.rest.head? ≠ some '[') :
    (operand budget text).map Taken.parts = (scalar before.rest).map Taken.parts := by
  rw [operand.eq_def, hgap]
  simp only [bind, Except.bind, front?_eq_none hbrace, front?_eq_none hbracket]
  cases scalar before.rest <;> rfl

end

namespace Walk

section

variable {before : Reached Unit rest} {left : List Char} {calls : Nat}
  {result : Except Failure (Operand × List Char)}

/-- The mark behind a gap is passed. -/
theorem tracks_opened {c : Char} (hgap : Literal.gap rest = .ok before) (hrest : before.rest = c :: left) :
    Tracks (expect c) text before.rest depth depth (.ok ((), left)) := by
  have hstay := gap_of_gap hgap
  rw [hrest] at hstay ⊢
  exact expect_eq hstay ▸ tracks_expect c

theorem tracks_object (hgap : Literal.gap rest = .ok before) (hbrace : before.rest = '\x7b' :: left)
    (h : Tracks (do
      enter
      return .value (.object (← elements '\x7d' .unterminatedObject (member (operand calls)) putDefined [])))
      text left depth depth result) :
    Tracks (operand (calls + 1)) text rest depth depth result := by
  rw [operand]
  refine .bind_ok (tracks_peek_ok hgap) fun _ => ?_
  simp only [hbrace, List.head?_cons, if_true]
  exact hbrace ▸ .bind_ok (tracks_opened hgap hbrace) fun _ => h

theorem tracks_array (hgap : Literal.gap rest = .ok before) (hbracket : before.rest = '[' :: left)
    (h : Tracks (do
      enter
      return .value (.array (← elements ']' .unterminatedArray (nested (operand calls)) addItem [])))
      text left depth depth result) :
    Tracks (operand (calls + 1)) text rest depth depth result := by
  rw [operand]
  refine .bind_ok (tracks_peek_ok hgap) fun _ => ?_
  have hbrace : '[' ≠ '\x7b' := by decide
  simp only [hbracket, List.head?_cons, if_neg hbrace, if_true]
  exact hbracket ▸ .bind_ok (tracks_opened hgap hbracket) fun _ => h

/-- An operand that is no container. -/
theorem tracks_no_container (hgap : Literal.gap rest = .ok before) (hbrace : before.rest.head? ≠ some '\x7b')
    (hbracket : before.rest.head? ≠ some '[') :
    Tracks (operand (calls + 1)) text rest depth depth ((Literal.scalar before.rest).map Taken.parts) := by
  have hstay := gap_of_gap hgap
  rw [operand]
  refine .bind_ok (tracks_peek_ok hgap) fun _ => ?_
  generalize before.rest = b at hbrace hbracket hstay
  rcases b with _ | ⟨c, rest⟩
  · exact tracks_refuse _
  · have hbrace' : c ≠ '\x7b' := fun h => hbrace (congrArg some h)
    have hbracket' : c ≠ '[' := fun h => hbracket (congrArg some h)
    dsimp only [List.head?_cons]
    rw [if_neg hbrace', if_neg hbracket']
    exact tracks_scalar hstay

end

/-- By recursion on the containers that may still nest, which with the open ones are as many as may at all. So many
operands nest, and one more. -/
theorem tracks_operand (budget depth : Nat) (rest : List Char) (hdepth : depth + budget = maxDepth) :
    Tracks (operand (budget + 1)) text rest depth depth ((Literal.operand budget rest).map Taken.parts) := by
  cases hgap : Literal.gap rest with
  | error failure =>
    rw [operand, Literal.operand.eq_def, hgap]
    exact .bind_error (tracks_peek_error hgap)
  | ok before =>
    by_cases hbrace : before.rest.head? = some '\x7b'
    · obtain ⟨left, hleft⟩ := List.head?_eq_some_iff.1 hbrace
      refine tracks_object hgap hleft ?_
      cases budget with
      | zero =>
        rw [operand_too_deep hgap (.inl rfl) hleft]
        exact .bind_error (tracks_enter_deep (Nat.le_of_eq hdepth.symm))
      | succ budget =>
        rw [parts_operand_object hgap hleft]
        refine .bind_ok (tracks_enter (by omega)) fun _ => ?_
        have hmember : ∀ rest, Literal.gap rest = .ok (.nothing () rest) →
            Tracks (member (operand (budget + 1))) text rest (depth + 1) (depth + 1)
              ((Literal.member (Literal.operand budget) rest).map Taken.parts) :=
          fun rest => tracks_member fun rest => tracks_operand budget (depth + 1) rest (by omega)
        refine (tracks_elements rfl hmember []).map_parts (Operand.value ∘ Json.object) fun entries => ?_
        exact congrArg (fun ms => (Operand.value (.object ms), entries.2)) (foldl_putDefined entries.1 []).symm
    · by_cases hbracket : before.rest.head? = some '['
      · obtain ⟨left, hleft⟩ := List.head?_eq_some_iff.1 hbracket
        refine tracks_array hgap hleft ?_
        cases budget with
        | zero =>
          rw [operand_too_deep hgap (.inr rfl) hleft]
          exact .bind_error (tracks_enter_deep (Nat.le_of_eq hdepth.symm))
        | succ budget =>
          rw [parts_operand_array hgap hleft]
          refine .bind_ok (tracks_enter (by omega)) fun _ => ?_
          have hitem : ∀ rest, Literal.gap rest = .ok (.nothing () rest) →
              Tracks (nested (operand (budget + 1))) text rest (depth + 1) (depth + 1)
                ((Literal.operand budget rest).map Taken.parts) :=
            fun rest _ => tracks_nested (tracks_operand budget (depth + 1) rest (by omega))
          refine (tracks_elements rfl hitem []).map_parts (Operand.value ∘ Json.array) fun values => ?_
          exact congrArg (fun vs => (Operand.value (.array vs), values.2)) (foldl_addItem values.1 []).symm
      · rw [parts_operand_scalar hgap hbrace hbracket]
        exact tracks_no_container hgap hbrace hbracket
termination_by budget

theorem byteCount_pos (h : text ≠ []) : 0 < byteCount text := by
  obtain ⟨c, rest, rfl⟩ := List.exists_cons_of_ne_nil h
  exact Nat.add_pos_left c.utf8Size_pos _

theorem tracks_literal :
    Tracks literal text text 0 0 ((Literal.read text).map fun json => (json, [])) := by
  have hoperand : Tracks (operand (maxDepth + 1)) text text 0 0 _ := tracks_operand maxDepth 0 text (Nat.zero_add _)
  unfold Literal.read
  cases hwhole : Literal.operand maxDepth text with
  | error failure => exact .bind_error (hoperand.error hwhole)
  | ok whole =>
    refine .bind_ok (hoperand.ok hwhole) fun _ => ?_
    obtain ⟨v, left, _⟩ := whole
    simp only [bind, Except.bind]
    cases v with
    | undefined => exact tracks_refuse _
    | value json =>
      dsimp only
      cases hgap : Literal.gap left with
      | error failure => exact .bind_error (tracks_gap.error hgap)
      | ok behind =>
        refine .bind_ok (tracks_gap.ok hgap) fun hbehind => ?_
        obtain ⟨_, b, _⟩ := behind
        refine .bind_ok tracks_offset fun _ => .bind_ok tracks_whole fun _ => ?_
        dsimp only at hbehind ⊢
        by_cases hend : b = []
        · subst hend
          rw [if_pos rfl, byteCount_nil, Nat.sub_zero, if_neg (Nat.lt_irrefl _)]
          exact tracks_pure json
        · have := byteCount_pos hend
          have : byteCount b ≤ byteCount text := by
            obtain ⟨front, rfl⟩ := hbehind
            rw [byteCount_append]
            omega
          rw [if_neg hend, if_pos (by omega)]
          exact tracks_refuse _

/-- Read in place, every text is read to an end and without a fault: no difference of surrogates is below zero and
no pair beyond Unicode, no container is left that was not opened, each round of a loop and each nested value moves
on or ends the walk, no more operands nest than containers may be open and one, and each cut is at the edge of a
character, as it would be a fault anywhere else. What the walk gives, and the message with which it refuses a text,
is what the reader gives. -/
theorem read_without_fault (text : List Char) :
    read text = (Literal.read text).mapError (fun failure => .refusal (failure.message text)) ∧
      (∀ fault, read text ≠ .error (.fault fault)) ∧
      ∀ offset piece cursor, (cut offset piece).outcome text cursor = .error (.fault (.cut offset)) ↔
        ¬ ∃ front back, piece = front ++ back ∧ byteCount front = offset := by
  have hread : read text = (Literal.read text).mapError fun failure => .refusal (failure.message text) := by
    have hliteral := tracks_literal (List.suffix_refl text)
    have hstart : Cursor.before text text 0 = ⟨0, 0⟩ := congrArg (Cursor.mk · 0) (Nat.sub_self _)
    rw [hstart] at hliteral
    unfold read
    cases hresult : Literal.read text with
    | error failure =>
      rw [hresult] at hliteral
      rw [hliteral]
      rfl
    | ok json =>
      rw [hresult] at hliteral
      rw [hliteral.2]
      rfl
  refine ⟨hread, fun fault hfault => ?_, fun _ _ _ => outcome_cut_eq_fault_iff⟩
  rw [hread] at hfault
  cases h : Literal.read text <;> rw [h] at hfault <;> cases hfault

end Walk

end StateScript.Literal
