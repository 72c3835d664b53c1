/-
Literal terms and their spellings. A term says what a literal denotes: data with signed integers of
64 bits, and `undefined` at any place. A container is spelled as its elements with a comma behind
each, which the last may lack, and with gaps around them; a key is spelled as a string, as a word, or
as digits.

Listing elements is one relation for arrays and objects, over any relation that spells an element.
-/
import StateScript.Proofs.Literal.Numeral
import StateScript.Proofs.Literal.Quoted

namespace StateScript.Literal

open Text

/-! ## Terms -/

/-- What a literal says. The members of an object stand as they are written, also those under one
key and those that are undefined. -/
inductive Term where
  | undefined
  | null
  | bool (value : Bool)
  | int (value : Int) (fits : FitsSigned value)
  | string (value : String)
  | array (items : List Term)
  | object (members : List (String × Term))

namespace Term

mutual

/-- The operand that a term denotes. -/
def operand : Term → Operand
  | undefined => .undefined
  | null => .value .null
  | bool b => .value (.bool b)
  | int i fits => .value (.number (.int i fits.fitsWord))
  | string s => .value (.string s)
  | array items => .value (.array (itemValues items))
  | object members => .value (.object (Members.ofList (memberValues members)))
termination_by structural t => t

/-- The values of the items: null for an undefined one. -/
def itemValues : List Term → List Json
  | [] => []
  | t :: rest => t.operand.toJson :: itemValues rest
termination_by structural ts => ts

/-- The values of the members, without the undefined ones. -/
def memberValues : List (String × Term) → List (String × Json)
  | [] => []
  | (key, t) :: rest =>
    match t.operand.json? with
    | some v => (key, v) :: memberValues rest
    | none => memberValues rest
termination_by structural ms => ms

end

mutual

/-- The number of containers nested in one another. -/
def depth : Term → Nat
  | array items => depthOfItems items + 1
  | object members => depthOfMembers members + 1
  | _ => 0
termination_by structural t => t

/-- The greatest depth among the items. -/
def depthOfItems : List Term → Nat
  | [] => 0
  | t :: rest => max t.depth (depthOfItems rest)
termination_by structural ts => ts

/-- The greatest depth among the members. -/
def depthOfMembers : List (String × Term) → Nat
  | [] => 0
  | (_, t) :: rest => max t.depth (depthOfMembers rest)
termination_by structural ms => ms

end

theorem itemValues_eq (items : List Term) : itemValues items = (items.map operand).map Operand.toJson := by
  induction items with
  | nil => rfl
  | cons t items ih => rw [itemValues, ih, List.map_cons, List.map_cons]

theorem memberValues_eq (members : List (String × Term)) :
    Members.ofList (memberValues members) = definedMembers (members.map fun m => (m.1, m.2.operand)) := by
  have hvalues : memberValues members =
      (members.map fun m => (m.1, m.2.operand)).filterMap fun entry => entry.2.json?.map (entry.1, ·) := by
    induction members with
    | nil => rfl
    | cons m members ih =>
      obtain ⟨key, t⟩ := m
      rw [memberValues, List.map_cons, List.filterMap_cons, ih]
      cases t.operand.json? <;> rfl
  exact congrArg Members.ofList hvalues

theorem depth_le_of_mem_items {t : Term} {items : List Term} (h : t ∈ items) : t.depth ≤ depthOfItems items := by
  induction items with
  | nil => cases h
  | cons u items ih =>
    rw [depthOfItems]
    rcases List.mem_cons.1 h with rfl | h
    · exact Nat.le_max_left _ _
    · exact Nat.le_trans (ih h) (Nat.le_max_right _ _)

theorem depth_le_of_mem_members {m : String × Term} {members : List (String × Term)} (h : m ∈ members) :
    m.2.depth ≤ depthOfMembers members := by
  induction members with
  | nil => cases h
  | cons n members ih =>
    rw [depthOfMembers]
    rcases List.mem_cons.1 h with rfl | h
    · exact Nat.le_max_left _ _
    · exact Nat.le_trans (ih h) (Nat.le_max_right _ _)

end Term

/-! ## Spellings -/

/-- The spellings of a key. Digits are the key that their number is written as. -/
inductive SpelledKey : String → List Char → Prop where
  | string {s : String} {text : List Char} (h : SpelledString s text) : SpelledKey s text
  | word {c : Char} {more : List Char} (hc : isWordStart c = true) (hmore : ∀ d ∈ more, isWordPart d = true) :
    SpelledKey (String.ofList (c :: more)) (c :: more)
  | number {digits : List Char} (h : IsDigits digits) (hfits : FitsSigned (ofDigits digits)) :
    SpelledKey (String.ofList (toDigits (ofDigits digits))) digits

/-- The spellings of a member, where `R` spells its value. -/
inductive SpelledMember (R : Term → List Char → Prop) : String × Term → List Char → Prop where
  | mk {key : String} {t : Term} {name before behind text : List Char} (hkey : SpelledKey key name)
    (hbefore : IsGap before) (hbehind : IsGap behind) (h : R t text) :
    SpelledMember R (key, t) (name ++ (before ++ ':' :: (behind ++ text)))

/-- The spellings of elements one behind the other, where `R` spells one of them. -/
inductive Listed {α : Type} (R : α → List Char → Prop) : List α → List Char → Prop where
  | none {g : List Char} (hg : IsGap g) : Listed R [] g
  | last {a : α} {before text behind : List Char} (hbefore : IsGap before) (h : R a text) (hbehind : IsGap behind) :
    Listed R [a] (before ++ (text ++ behind))
  | comma {a : α} {as : List α} {before text behind body : List Char} (hbefore : IsGap before) (h : R a text)
    (hbehind : IsGap behind) (hmore : Listed R as body) :
    Listed R (a :: as) (before ++ (text ++ (behind ++ ',' :: body)))

/-- The spellings of a term, without gaps around them. -/
inductive Spelled : Term → List Char → Prop where
  | undefined : Spelled .undefined ['u', 'n', 'd', 'e', 'f', 'i', 'n', 'e', 'd']
  | null : Spelled .null ['n', 'u', 'l', 'l']
  | true : Spelled (.bool true) ['t', 'r', 'u', 'e']
  | false : Spelled (.bool false) ['f', 'a', 'l', 's', 'e']
  | int {i : Int} {text : List Char} (fits : FitsSigned i) (h : SpelledInt i text) : Spelled (.int i fits) text
  | string {s : String} {text : List Char} (h : SpelledString s text) : Spelled (.string s) text
  | array {items : List Term} {body : List Char} (h : Listed Spelled items body) :
    Spelled (.array items) ('[' :: (body ++ [']']))
  | object {members : List (String × Term)} {body : List Char} (h : Listed (SpelledMember Spelled) members body) :
    Spelled (.object members) ('\x7b' :: (body ++ ['\x7d']))

end StateScript.Literal
