/-
What a reader takes off the front of a text: a value, and the rest of the text. A `Taken` rest is
shorter than the text was, so that a loop of such readers ends; a `Reached` rest is at least not
longer, for readers that may find nothing to take.
-/

namespace StateScript.Text

/-- A value read off the front of `text`, and what is left to read. -/
structure Taken (α : Type) (text : List Char) where
  value : α
  rest : List Char
  shorter : rest.length < text.length

/-- A value read off the front of `text`, which may be empty, and what is left to read. -/
structure Reached (α : Type) (text : List Char) where
  value : α
  rest : List Char
  notLonger : rest.length ≤ text.length

variable {α β : Type} {text : List Char}

namespace Taken

/-- Another value read off the same front. -/
def map (f : α → β) (taken : Taken α text) : Taken β text :=
  ⟨f taken.value, taken.rest, taken.shorter⟩

/-- One character is read off. -/
def first (value : α) (c : Char) (rest : List Char) : Taken α (c :: rest) := ⟨value, rest, Nat.lt_succ_self _⟩

/-- What was read off a later part of the text was read off the text. -/
def within {part : List Char} (taken : Taken α part) (h : part.length ≤ text.length) : Taken α text :=
  ⟨taken.value, taken.rest, Nat.lt_of_lt_of_le taken.shorter h⟩

/-- What was read off behind a character was read off with it. -/
def behind (c : Char) (taken : Taken α text) : Taken α (c :: text) := taken.within (Nat.le_succ _)

/-- What was read off the rest that another reading left was read off the text. -/
def after (first : Taken α text) (next : Taken β first.rest) : Taken β text :=
  next.within (Nat.le_of_lt first.shorter)

theorem notLonger (taken : Taken α text) : taken.rest.length ≤ text.length := Nat.le_of_lt taken.shorter

/-- Taking something leaves a text no longer than before. -/
def reached (taken : Taken α text) : Reached α text :=
  ⟨taken.value, taken.rest, Nat.le_of_lt taken.shorter⟩

@[simp] theorem map_value (f : α → β) (taken : Taken α text) : (taken.map f).value = f taken.value := rfl

@[simp] theorem map_rest (f : α → β) (taken : Taken α text) : (taken.map f).rest = taken.rest := rfl

@[simp] theorem within_value {part : List Char} (taken : Taken α part) (h : part.length ≤ text.length) :
    (taken.within h).value = taken.value := rfl

@[simp] theorem within_rest {part : List Char} (taken : Taken α part) (h : part.length ≤ text.length) :
    (taken.within h).rest = taken.rest := rfl

@[simp] theorem behind_value (c : Char) (taken : Taken α text) : (taken.behind c).value = taken.value := rfl

@[simp] theorem behind_rest (c : Char) (taken : Taken α text) : (taken.behind c).rest = taken.rest := rfl

@[simp] theorem after_value (first : Taken α text) (next : Taken β first.rest) :
    (first.after next).value = next.value := rfl

@[simp] theorem after_rest (first : Taken α text) (next : Taken β first.rest) :
    (first.after next).rest = next.rest := rfl

end Taken

namespace Reached

/-- Nothing is read. -/
def nothing (value : α) (text : List Char) : Reached α text := ⟨value, text, Nat.le_refl _⟩

/-- One character is read. -/
def first (value : α) (c : Char) (rest : List Char) : Reached α (c :: rest) := ⟨value, rest, Nat.le_succ _⟩

/-- What was read off a later part of the text was read off the text. -/
def within {part : List Char} (reached : Reached α part) (h : part.length ≤ text.length) : Reached α text :=
  ⟨reached.value, reached.rest, Nat.le_trans reached.notLonger h⟩

/-- Another value read off the same front. -/
def map (f : α → β) (reached : Reached α text) : Reached β text :=
  ⟨f reached.value, reached.rest, reached.notLonger⟩

/-- What was read behind a character is taken off with it. -/
def taken (c : Char) (reached : Reached α text) : Taken α (c :: text) :=
  ⟨reached.value, reached.rest, Nat.lt_succ_of_le reached.notLonger⟩

/-- What was read behind a character was read with it. -/
def behind (c : Char) (reached : Reached α text) : Reached α (c :: text) := reached.within (Nat.le_succ _)

/-- What was taken off the rest that another reading left was taken off the text. -/
def after (first : Reached α text) (next : Taken β first.rest) : Taken β text :=
  next.within first.notLonger

@[simp] theorem within_value {part : List Char} (reached : Reached α part) (h : part.length ≤ text.length) :
    (reached.within h).value = reached.value := rfl

@[simp] theorem within_rest {part : List Char} (reached : Reached α part) (h : part.length ≤ text.length) :
    (reached.within h).rest = reached.rest := rfl

@[simp] theorem after_value (first : Reached α text) (next : Taken β first.rest) :
    (first.after next).value = next.value := rfl

@[simp] theorem after_rest (first : Reached α text) (next : Taken β first.rest) :
    (first.after next).rest = next.rest := rfl

end Reached

/-! ## One reader after another -/

/-- What a sequence of readers gives, its last gives, behind a first that gave something. -/
theorem exists_of_bind_eq_ok {ε : Type} {x : Except ε α} {f : α → Except ε β} {b : β} (h : x >>= f = .ok b) :
    ∃ a, x = .ok a ∧ f a = .ok b := by
  cases x with
  | error _ => cases h
  | ok a => exact ⟨a, rfl, h⟩

theorem exists_of_map_eq_ok {ε : Type} {x : Except ε α} {f : α → β} {b : β} (h : x.map f = .ok b) :
    ∃ a, x = .ok a ∧ f a = b := by
  cases x with
  | error _ => cases h
  | ok a => exact ⟨a, rfl, Except.ok.inj h⟩

/-! ## Fronts of a text -/

/-- A front, and a front of the rest, make up a front. -/
theorem eq_append_trans {first second rest last : List Char} (h : text = first ++ rest)
    (hrest : rest = second ++ last) : text = first ++ second ++ last := by
  rw [h, hrest, List.append_assoc]

theorem cons_eq_append (c : Char) {front rest : List Char} (h : text = front ++ rest) :
    c :: text = c :: front ++ rest :=
  congrArg (c :: ·) h

/-- What is appended to a text between two marks stands behind the second one. -/
theorem between_append (opening closing : Char) (body rest : List Char) :
    opening :: (body ++ [closing]) ++ rest = opening :: (body ++ closing :: rest) := by
  simp only [List.cons_append, List.append_assoc, List.nil_append]

/-- The longest front whose characters are all in a class. -/
def run (p : Char → Bool) (text : List Char) : Reached (List Char) text :=
  ⟨text.takeWhile p, text.dropWhile p, (List.dropWhile_sublist p).length_le⟩

/-- A front in the class is the longest where a character outside of it comes next, or none. -/
theorem run_append {p : Char → Bool} {front rest : List Char} (h : ∀ c ∈ front, p c = true)
    (hrest : ∀ c, rest.head? = some c → p c = false) :
    ∃ notLonger, run p (front ++ rest) = ⟨front, rest, notLonger⟩ := by
  have hstop : rest.takeWhile p = [] ∧ rest.dropWhile p = rest := by
    rcases rest with _ | ⟨c, rest⟩
    · exact ⟨rfl, rfl⟩
    · simp [hrest c rfl]
  refine ⟨by simp, ?_⟩
  unfold run
  congr 1
  · rw [List.takeWhile_append_of_pos h, hstop.1, List.append_nil]
  · rw [List.dropWhile_append_of_pos h, hstop.2]

/-- A front that is not empty leaves a shorter text. -/
theorem run_shorter {p : Char → Bool} {text : List Char} (h : (run p text).value ≠ []) :
    (run p text).rest.length < text.length := by
  have hlen := congrArg List.length (List.takeWhile_append_dropWhile (p := p) (l := text))
  have := List.length_pos_iff.2 (show text.takeWhile p ≠ [] from h)
  rw [List.length_append] at hlen
  show (text.dropWhile p).length < text.length
  omega

/-- A front that is not empty and whose characters are all in a class, the longest there is. -/
def run? (p : Char → Bool) (text : List Char) : Option (Taken (List Char) text) :=
  if h : (run p text).value = [] then none
  else some ⟨(run p text).value, (run p text).rest, run_shorter h⟩

/-- At least one character, and all in a class. -/
def IsRun (p : Char → Bool) (front : List Char) : Prop := front ≠ [] ∧ ∀ c ∈ front, p c = true

/-- The longest front in the class stands before the rest. -/
theorem eq_append_of_run (p : Char → Bool) (text : List Char) :
    text = (run p text).value ++ (run p text).rest ∧ ∀ c ∈ (run p text).value, p c = true :=
  ⟨List.takeWhile_append_dropWhile.symm, List.all_eq_true.1 List.all_takeWhile⟩

theorem eq_append_of_run? {p : Char → Bool} {taken : Taken (List Char) text} (h : run? p text = some taken) :
    text = taken.value ++ taken.rest ∧ IsRun p taken.value := by
  unfold run? at h
  split at h
  · cases h
  · next hne =>
    cases h
    exact ⟨(eq_append_of_run p text).1, hne, (eq_append_of_run p text).2⟩

theorem run?_append {p : Char → Bool} {front rest : List Char} (h : IsRun p front)
    (hrest : ∀ c, rest.head? = some c → p c = false) :
    ∃ shorter, run? p (front ++ rest) = some ⟨front, rest, shorter⟩ := by
  obtain ⟨_, hrun⟩ := run_append h.2 hrest
  have hlen : rest.length < (front ++ rest).length := by
    have := List.length_pos_iff.2 h.1
    rw [List.length_append]
    omega
  refine ⟨hlen, ?_⟩
  unfold run?
  simp only [hrun, h.1, dite_false]

/-- The text behind `front`, if the text begins with it. -/
def dropFront? : (front text : List Char) → Option (List Char)
  | [], text => some text
  | _ :: _, [] => none
  | f :: front, c :: text => if f = c then dropFront? front text else none

theorem eq_append_of_dropFront? {front text rest : List Char} (h : dropFront? front text = some rest) :
    text = front ++ rest := by
  fun_induction dropFront? front text with
  | case1 => cases h; rfl
  | case2 => cases h
  | case3 c front text ih => simp [ih h]
  | case4 => cases h

theorem dropFront?_append (front rest : List Char) : dropFront? front (front ++ rest) = some rest := by
  induction front with
  | nil => rfl
  | cons f front ih => simp [dropFront?, ih]

/-- A value for a front that is not empty, if the text begins with it. -/
def front? (first : Char) (more : List Char) (value : α) (text : List Char) : Option (Taken α text) :=
  match h : dropFront? (first :: more) text with
  | some rest => some ⟨value, rest, by
    rw [eq_append_of_dropFront? h]
    simp only [List.length_append, List.length_cons]
    omega⟩
  | none => none

/-- A front that was taken off stands before the rest. -/
theorem eq_append_of_front? {first : Char} {more : List Char} {value : α} {taken : Taken α text}
    (h : front? first more value text = some taken) :
    text = first :: more ++ taken.rest ∧ taken.value = value := by
  unfold front? at h
  split at h
  · next hrest => cases h; exact ⟨eq_append_of_dropFront? hrest, rfl⟩
  · cases h

theorem front?_append (first : Char) (more : List Char) (value : α) (rest : List Char) :
    ∃ shorter, front? first more value (first :: (more ++ rest)) = some ⟨value, rest, shorter⟩ := by
  have hdrop : dropFront? (first :: more) (first :: (more ++ rest)) = some rest :=
    dropFront?_append (first :: more) rest
  refine ⟨by simp only [List.length_cons, List.length_append]; omega, ?_⟩
  unfold front?
  split
  · next r hr =>
    obtain rfl : rest = r := Option.some.inj (hdrop.symm.trans hr)
    rfl
  · next hnone => cases hnone.symm.trans hdrop

theorem front?_cons (c : Char) (value : α) (rest : List Char) :
    front? c [] value (c :: rest) = some ⟨value, rest, Nat.lt_succ_self _⟩ := by
  obtain ⟨_, h⟩ := front?_append c [] value rest
  exact h

/-- There is no front where the text begins otherwise. -/
theorem front?_eq_none {first : Char} {text : List Char} (h : text.head? ≠ some first) (more : List Char) (value : α) :
    front? first more value text = none := by
  unfold front?
  split
  · next r hr =>
    refine absurd ?_ h
    rw [eq_append_of_dropFront? hr]
    rfl
  · rfl

end StateScript.Text
