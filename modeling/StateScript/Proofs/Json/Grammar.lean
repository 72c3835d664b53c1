/-
The grammar of JSON text (RFC 8259), as a relation between values and the texts that spell them. It is
said here without a reader: what a string, a numeral, an element list and a value look like, and what
each denotes. Members under one key are all spelled, and the object has the last of them at the place
of the first.

At most so many containers nest in a spelled value, and its numerals can be held to a further condition.
-/
import StateScript.Json.Reader

namespace StateScript.Json

open Text

/-! ## Numerals -/

namespace Reader.Numeral

/-- The integer before the point, with its sign. -/
def integer (n : Numeral) : Int := if n.negative then -(ofDigits n.whole : Int) else ofDigits n.whole

/-- The numeral writes a signed integer of 64 bits, by digits alone, and not as `-0`. -/
def IsSigned (n : Numeral) : Prop :=
  n.fraction = [] ∧ n.exponent = none ∧ ¬ (n.negative = true ∧ ofDigits n.whole = 0) ∧ FitsSigned n.integer

/-- Digits alone write the integer that they are, if it fits and is not `-0`. -/
theorem number?_of_digits {n : Numeral} (hfraction : n.fraction = []) (hexponent : n.exponent = none)
    (hzero : ¬ (n.negative = true ∧ ofDigits n.whole = 0)) (fits : FitsWord n.integer) :
    n.number? = some (.int n.integer fits) := by
  have hplain : n.fraction = [] ∧ n.exponent = none ∧ ¬ (n.negative = true ∧ (ofDigits n.whole : Int) = 0) :=
    ⟨hfraction, hexponent, fun h => hzero ⟨h.1, Int.ofNat_eq_zero.1 h.2⟩⟩
  have hint : n.int? = some (.int n.integer fits) := (if_pos hplain).trans (dif_pos fits)
  rw [number?, hint]

/-- The sign that a numeral is spelled with. -/
def sign (n : Numeral) : List Char := if n.negative then ['-'] else []

end Reader.Numeral

/-- Any numeral. -/
abbrev Reader.AnyNumeral (_ : Reader.Numeral) : Prop := True

namespace Grammar

open Reader

/-- Blanks of JSON text, and nothing else. -/
def Blank (text : List Char) : Prop := ∀ c ∈ text, isSpace c = true

theorem blank_nil : Blank [] := fun _ h => by cases h

/-- The spellings of the digits behind the point. A point without digits is none. -/
inductive Point : List Char → List Char → Prop
  | absent : Point [] []
  | digits {ds : List Char} (h : IsRun Char.isDigit ds) : Point ds ('.' :: ds)

/-- The spellings of a power of ten. -/
inductive Power : Option Int → List Char → Prop
  | absent : Power none []
  | plain {letter : Char} {ds : List Char} (hletter : letter = 'e' ∨ letter = 'E') (h : IsRun Char.isDigit ds) :
    Power (some (ofDigits ds)) (letter :: ds)
  | plus {letter : Char} {ds : List Char} (hletter : letter = 'e' ∨ letter = 'E') (h : IsRun Char.isDigit ds) :
    Power (some (ofDigits ds)) (letter :: '+' :: ds)
  | minus {letter : Char} {ds : List Char} (hletter : letter = 'e' ∨ letter = 'E') (h : IsRun Char.isDigit ds) :
    Power (some (-(ofDigits ds))) (letter :: '-' :: ds)

/-- The spellings of a numeral. Its whole part begins with a zero only if it is nothing else. -/
inductive Spells : Numeral → List Char → Prop
  | mk {n : Numeral} {point power : List Char} (hwhole : IsRun Char.isDigit n.whole)
    (hzero : n.whole.head? = some '0' → n.whole = ['0']) (hpoint : Point n.fraction point)
    (hpower : Power n.exponent power) : Spells n (n.sign ++ (n.whole ++ (point ++ power)))

/-! ## Strings -/

/-- The characters with a short escape, behind the character that stands for them there. -/
def shortEscapes : List (Char × Char) :=
  [('"', '"'), ('\\', '\\'), ('/', '/'), ('b', '\x08'), ('f', '\x0c'), ('n', '\n'), ('r', '\r'), ('t', '\t')]

/-- What may stand behind a backslash for a character. -/
inductive Escape : Char → List Char → Prop
  | short {c d : Char} (h : (c, d) ∈ shortEscapes) : Escape d [c]
  | unit {c : Char} {digits : List Char} (hlen : digits.length = 4) (h : ofHex? digits = some c.toNat) :
    Escape c ('u' :: digits)
  | pair {c : Char} {high low : List Char} {m n : Nat} (hhigh : high.length = 4) (hlow : low.length = 4)
    (hm : ofHex? high = some m) (hn : ofHex? low = some n) (hms : isHighSurrogate m = true)
    (hns : isLowSurrogate n = true) (h : ofSurrogates m n = c.toNat) :
    Escape c ('u' :: (high ++ '\\' :: 'u' :: low))

/-- The characters of a string, and what may stand for them between its quotes. -/
inductive Body : List Char → List Char → Prop
  | nil : Body [] []
  | raw {c : Char} {chars text : List Char} (hquote : c ≠ '"') (hback : c ≠ '\\') (hcontrol : ¬ c.toNat < 32)
    (h : Body chars text) : Body (c :: chars) (c :: text)
  | escape {c : Char} {esc chars text : List Char} (he : Escape c esc) (h : Body chars text) :
    Body (c :: chars) ('\\' :: (esc ++ text))

/-! ## Containers -/

/-- One or more elements with commas between them, where `R` spells one. -/
inductive Elements {α : Type} (R : α → List Char → Prop) : List α → List Char → Prop
  | last {a : α} {before text behind : List Char} (hbefore : Blank before) (h : R a text) (hbehind : Blank behind) :
    Elements R [a] (before ++ (text ++ behind))
  | comma {a : α} {as : List α} {before text behind body : List Char} (hbefore : Blank before) (h : R a text)
    (hbehind : Blank behind) (hmore : Elements R as body) :
    Elements R (a :: as) (before ++ (text ++ (behind ++ ',' :: body)))

/-- What may stand between the brackets of a container. -/
inductive Listed {α : Type} (R : α → List Char → Prop) : List α → List Char → Prop
  | none {blanks : List Char} (h : Blank blanks) : Listed R [] blanks
  | some {as : List α} {body : List Char} (h : Elements R as body) : Listed R as body

/-- The spellings of a member, where `R` spells its value. -/
inductive Member (R : Json → List Char → Prop) : String × Json → List Char → Prop
  | mk {v : Json} {chars key before behind text : List Char} (hkey : Body chars key) (hbefore : Blank before)
    (hbehind : Blank behind) (h : R v text) :
    Member R (String.ofList chars, v) ('"' :: (key ++ '"' :: (before ++ ':' :: (behind ++ text))))

/-- The spellings of a container, where `R` spells the values in it. -/
inductive Container (R : Json → List Char → Prop) : Json → List Char → Prop
  | array {items : List Json} {body : List Char} (h : Listed R items body) :
    Container R (.array items) ('[' :: (body ++ [']']))
  | object {members : List (String × Json)} {body : List Char} (h : Listed (Member R) members body) :
    Container R (.object (Members.ofList members)) ('\x7b' :: (body ++ ['\x7d']))

/-! ## Values -/

variable (P : Numeral → Prop)

/-- The spellings of a value other than a container, its numeral being one of `P`. -/
inductive Scalar : Json → List Char → Prop
  | null : Scalar .null ['n', 'u', 'l', 'l']
  | true : Scalar (.bool true) ['t', 'r', 'u', 'e']
  | false : Scalar (.bool false) ['f', 'a', 'l', 's', 'e']
  | number {numeral : Numeral} {n : Number} {text : List Char} (hP : P numeral) (h : Spells numeral text)
    (hn : numeral.number? = some n) : Scalar (.number n) text
  | string {chars body : List Char} (h : Body chars body) :
    Scalar (.string (String.ofList chars)) ('"' :: (body ++ ['"']))

/-- The spellings of a value in which at most so many containers nest and every numeral is one of `P`. -/
def Value : Nat → Json → List Char → Prop
  | 0, v, text => Scalar P v text
  | budget + 1, v, text => Scalar P v text ∨ Container (Value budget) v text

variable {P} in
theorem Scalar.value {v : Json} {text : List Char} (h : Scalar P v text) : ∀ budget, Value P budget v text
  | 0 => h
  | _ + 1 => .inl h

/-- The texts that hold a value, with blanks around it. -/
inductive Holds (budget : Nat) (v : Json) : List Char → Prop
  | mk {before text behind : List Char} (hbefore : Blank before) (h : Value P budget v text) (hbehind : Blank behind) :
    Holds budget v (before ++ (text ++ behind))

theorem Value.holds {P : Numeral → Prop} {budget : Nat} {v : Json} {text : List Char} (h : Value P budget v text) :
    Holds P budget v text := by
  have hholds := Holds.mk blank_nil h blank_nil
  rwa [List.append_nil] at hholds

/-! ## Wider grammars -/

section

variable {α : Type} {R S : α → List Char → Prop}

theorem Elements.imp (h : ∀ a text, R a text → S a text) {as : List α} {body : List Char}
    (helements : Elements R as body) : Elements S as body := by
  induction helements with
  | last hbefore ha hbehind => exact .last hbefore (h _ _ ha) hbehind
  | comma hbefore ha hbehind _ ih => exact .comma hbefore (h _ _ ha) hbehind ih

theorem Listed.imp (h : ∀ a text, R a text → S a text) {as : List α} {body : List Char} (hlisted : Listed R as body) :
    Listed S as body := by
  cases hlisted with
  | none hblanks => exact .none hblanks
  | some helements => exact .some (helements.imp h)

end

theorem Container.imp {R S : Json → List Char → Prop} (h : ∀ v text, R v text → S v text) {v : Json} {text : List Char}
    (hcontainer : Container R v text) : Container S v text := by
  cases hcontainer with
  | array hitems => exact .array (hitems.imp h)
  | object hmembers =>
    refine .object (hmembers.imp ?_)
    rintro _ _ ⟨hkey, hbefore, hbehind, hv⟩
    exact .mk hkey hbefore hbehind (h _ _ hv)

variable {P} in
/-- Where fewer containers may nest, no other values are spelled. -/
theorem Value.mono {m n : Nat} (hmn : m ≤ n) (v : Json) (text : List Char) (h : Value P m v text) :
    Value P n v text := by
  induction m generalizing n v text with
  | zero => exact Scalar.value h n
  | succ m ih =>
    obtain ⟨n, rfl⟩ := Nat.exists_eq_add_of_le' (Nat.one_le_of_lt hmn)
    rcases h with h | h
    · exact .inl h
    · exact .inr (h.imp fun v text => ih (Nat.le_of_succ_le_succ hmn) v text)

/-! ## Ends and beginnings -/

/-- A character that a numeral may go on with. -/
def inNumeral (c : Char) : Bool := c.isDigit || c == '-' || c == '+' || c == '.' || c == 'e' || c == 'E'

/-- No numeral goes on into the text. -/
def AfterNumeral (text : List Char) : Prop := ∀ c, text.head? = some c → inNumeral c = false

/-- The text begins with no blank and with no closing bracket. -/
def Begins (text : List Char) : Prop :=
  ∃ c more, text = c :: more ∧ isSpace c = false ∧ c ≠ ']' ∧ c ≠ '\x7d'

theorem afterNumeral_nil : AfterNumeral [] := fun _ h => by cases h

theorem afterNumeral_cons {c : Char} (h : inNumeral c = false) (text : List Char) : AfterNumeral (c :: text) := by
  rintro d ⟨⟩
  exact h

theorem inNumeral_of_isSpace {c : Char} (h : isSpace c = true) : inNumeral c = false := by
  simp only [isSpace, Bool.or_eq_true, beq_iff_eq] at h
  rcases h with ((rfl | rfl) | rfl) | rfl <;> decide

theorem of_inNumeral {c : Char} (h : inNumeral c = false) : c.isDigit = false ∧ c ≠ '.' ∧ c ≠ 'e' ∧ c ≠ 'E' := by
  simp only [inNumeral, Bool.or_eq_false_iff, beq_eq_false_iff_ne] at h
  obtain ⟨⟨⟨⟨⟨hdigit, -⟩, -⟩, hpoint⟩, he⟩, hE⟩ := h
  exact ⟨hdigit, hpoint, he, hE⟩

/-- Blanks behind a numeral are no more of it. -/
theorem afterNumeral_append {blanks text : List Char} (h : Blank blanks) (htext : AfterNumeral text) :
    AfterNumeral (blanks ++ text) := by
  cases blanks with
  | nil => exact htext
  | cons c blanks => exact afterNumeral_cons (inNumeral_of_isSpace (h c List.mem_cons_self)) _

theorem afterNumeral_of_blank {blanks : List Char} (h : Blank blanks) : AfterNumeral blanks := by
  have hafter := afterNumeral_append h afterNumeral_nil
  rwa [List.append_nil] at hafter

/-- Neither a digit nor a point stands behind a fraction. -/
theorem Power.behind {exponent : Option Int} {power rest : List Char} (h : Power exponent power)
    (hrest : AfterNumeral rest) : ∀ c, (power ++ rest).head? = some c → c.isDigit = false ∧ c ≠ '.' := by
  intro c hc
  cases h with
  | absent => exact ⟨(of_inNumeral (hrest c hc)).1, (of_inNumeral (hrest c hc)).2.1⟩
  | plain hletter _ | plus hletter _ | minus hletter _ =>
    cases hc
    rcases hletter with rfl | rfl <;> decide

/-- No digit stands behind a whole part. -/
theorem Point.behind {digits point text : List Char} (h : Point digits point)
    (htext : ∀ c, text.head? = some c → c.isDigit = false ∧ c ≠ '.') :
    ∀ c, (point ++ text).head? = some c → c.isDigit = false := by
  intro c hc
  cases h with
  | absent => exact (htext c hc).1
  | digits _ =>
    cases hc
    decide

theorem Power.letter {exponent : Option Int} {power : List Char} (h : Power exponent power) :
    exponent = none ∧ power = [] ∨
      ∃ e letter digits, exponent = some e ∧ power = letter :: digits ∧ (letter = 'e' ∨ letter = 'E') := by
  cases h with
  | absent => exact .inl ⟨rfl, rfl⟩
  | plain hletter _ | plus hletter _ | minus hletter _ => exact .inr ⟨_, _, _, rfl, rfl, hletter⟩

/-- A numeral begins with its sign or a digit. -/
theorem Spells.head {n : Numeral} {text : List Char} (h : Spells n text) :
    ∃ c more, text = c :: more ∧ (c = '-' ∨ c.isDigit = true) := by
  cases h with
  | mk hwhole _ _ _ =>
    unfold Numeral.sign
    split
    · exact ⟨'-', _, rfl, .inl rfl⟩
    · obtain ⟨c, more, hdigits⟩ := List.exists_cons_of_ne_nil hwhole.1
      have hc : c.isDigit = true := hwhole.2 c (hdigits ▸ List.mem_cons_self)
      rw [hdigits]
      exact ⟨c, _, rfl, .inr hc⟩

variable {P}

/-- A value other than a container begins with a letter of its word, a quote mark, a sign or a digit. -/
theorem Scalar.head {v : Json} {text : List Char} (h : Scalar P v text) :
    ∃ c more, text = c :: more ∧ (c ∈ ['n', 't', 'f', '"', '-'] ∨ c.isDigit = Bool.true) := by
  cases h with
  | null => exact ⟨_, _, rfl, .inl (by decide)⟩
  | true => exact ⟨_, _, rfl, .inl (by decide)⟩
  | false => exact ⟨_, _, rfl, .inl (by decide)⟩
  | string _ => exact ⟨_, _, rfl, .inl (by decide)⟩
  | number _ h _ =>
    obtain ⟨c, more, rfl, hc⟩ := h.head
    refine ⟨c, more, rfl, hc.imp_left ?_⟩
    rintro rfl
    decide

/-- None of these is a blank or a bracket. -/
theorem of_head {c : Char} (h : c ∈ ['n', 't', 'f', '"', '-'] ∨ c.isDigit = true) :
    isSpace c = false ∧ c ∉ ['[', ']', '\x7b', '\x7d'] := by
  constructor
  · rw [← Bool.not_eq_true]
    intro hspace
    simp only [isSpace, Bool.or_eq_true, beq_iff_eq] at hspace
    rcases hspace with ((rfl | rfl) | rfl) | rfl <;> exact absurd h (by decide)
  · intro hmem
    simp only [List.mem_cons, List.not_mem_nil, or_false] at hmem
    rcases hmem with rfl | rfl | rfl | rfl <;> exact absurd h (by decide)

theorem Scalar.begins {v : Json} {text : List Char} (h : Scalar P v text) : Begins text := by
  obtain ⟨c, more, rfl, hc⟩ := h.head
  obtain ⟨hspace, hplain⟩ := of_head hc
  simp only [List.mem_cons, List.not_mem_nil, or_false, not_or] at hplain
  exact ⟨c, more, rfl, hspace, hplain.2.1, hplain.2.2.2⟩

theorem Scalar.head?_ne {v : Json} {text : List Char} (h : Scalar P v text) (rest : List Char) :
    (text ++ rest).head? ≠ some '[' ∧ (text ++ rest).head? ≠ some '\x7b' := by
  obtain ⟨c, more, rfl, hc⟩ := h.head
  have hplain := (of_head hc).2
  simp only [List.mem_cons, List.not_mem_nil, or_false, not_or] at hplain
  exact ⟨fun h => hplain.1 (Option.some.inj h), fun h => hplain.2.2.1 (Option.some.inj h)⟩

theorem Container.begins {R : Json → List Char → Prop} {v : Json} {text : List Char} (h : Container R v text) :
    Begins text := by
  cases h with
  | array _ => exact ⟨_, _, rfl, by decide⟩
  | object _ => exact ⟨_, _, rfl, by decide⟩

theorem Member.begins {R : Json → List Char → Prop} {m : String × Json} {text : List Char} (h : Member R m text) :
    Begins text := by
  cases h with
  | mk _ _ _ _ => exact ⟨_, _, rfl, by decide⟩

/-- Elements begin with blanks and no closing bracket. -/
theorem Elements.begins {α : Type} {R : α → List Char → Prop}
    (hbegins : ∀ {a : α} {text : List Char}, R a text → Begins text) {as : List α} {body : List Char}
    (h : Elements R as body) : ∃ blanks text, body = blanks ++ text ∧ Blank blanks ∧ Begins text := by
  cases h with
  | last hbefore h _ | comma hbefore h _ _ =>
    obtain ⟨c, more, rfl, hc⟩ := hbegins h
    exact ⟨_, _, rfl, hbefore, c, _, rfl, hc⟩

theorem Value.begins : ∀ {budget : Nat} {v : Json} {text : List Char}, Value P budget v text → Begins text
  | 0, _, _, h => Scalar.begins h
  | _ + 1, _, _, .inl h => h.begins
  | _ + 1, _, _, .inr h => h.begins

end Grammar

end StateScript.Json
