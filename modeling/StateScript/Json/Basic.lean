/-
JSON values. The members of an object keep an order, which equality (`same`) does not look at and
identity does.
`keyText` is the text that a value gives as the key of a member.
-/
import StateScript.Json.Members
import StateScript.Json.Number

namespace StateScript

/-- A JSON value. -/
inductive Json where
  | null
  | bool (value : Bool)
  | number (value : Number)
  | string (value : String)
  | array (items : List Json)
  | object (members : List (String × Json))

instance : Inhabited Json := ⟨.null⟩

namespace Json

/-- The value has items or members. -/
def isContainer : Json → Bool
  | array _ => true
  | object _ => true
  | _ => false

/-- A list with its label: an array of two items, an array and a string. -/
def isTuple : Json → Bool
  | array [array _, string _] => true
  | _ => false

/-! ## Depth -/

mutual

/-- The number of containers nested in one another. -/
def depth : Json → Nat
  | array items => depthOfItems items + 1
  | object members => depthOfMembers members + 1
  | _ => 0
termination_by structural v => v

/-- The greatest depth among the items. -/
def depthOfItems : List Json → Nat
  | [] => 0
  | v :: rest => max v.depth (depthOfItems rest)
termination_by structural vs => vs

/-- The greatest depth among the values of the members. -/
def depthOfMembers : List (String × Json) → Nat
  | [] => 0
  | (_, v) :: rest => max v.depth (depthOfMembers rest)
termination_by structural ms => ms

end

theorem depthOfItems_le_iff {items : List Json} {n : Nat} : depthOfItems items ≤ n ↔ ∀ v ∈ items, v.depth ≤ n := by
  induction items with
  | nil => simp [depthOfItems]
  | cons v more ih => rw [depthOfItems, Nat.max_le, ih, List.forall_mem_cons]

theorem depthOfMembers_le_iff {members : List (String × Json)} {n : Nat} :
    depthOfMembers members ≤ n ↔ ∀ m ∈ members, m.2.depth ≤ n := by
  induction members with
  | nil => simp [depthOfMembers]
  | cons m more ih => rw [depthOfMembers, Nat.max_le, ih, List.forall_mem_cons]

/-! ## Equality -/

mutual

/-- Equality of values, whatever the order of the members. -/
def same : Json → Json → Bool
  | null, null => true
  | bool a, bool b => a == b
  | number a, number b => a.same b
  | string a, string b => a == b
  | array xs, array ys => sameItems xs ys
  | object ms, object ns => ms.length == ns.length && sameMembers ms ns
  | _, _ => false
termination_by structural v => v

/-- The items are equal one by one. -/
def sameItems : List Json → List Json → Bool
  | [], [] => true
  | x :: xs, y :: ys => x.same y && sameItems xs ys
  | _, _ => false
termination_by structural vs => vs

/-- Each of the members is among the others, with an equal value. -/
def sameMembers : List (String × Json) → List (String × Json) → Bool
  | [], _ => true
  | (k, v) :: rest, others =>
    (match Members.get? k others with
      | some w => v.same w
      | none => false) && sameMembers rest others
termination_by structural ms => ms

end

/-! ## Identity -/

mutual

/-- The values are the same, and their members stand in the same order. -/
def identical : Json → Json → Bool
  | null, null => true
  | bool a, bool b => a == b
  | number a, number b => decide (a = b)
  | string a, string b => a == b
  | array xs, array ys => identicalItems xs ys
  | object ms, object ns => identicalMembers ms ns
  | _, _ => false
termination_by structural v => v

/-- The items are identical one by one. -/
def identicalItems : List Json → List Json → Bool
  | [], [] => true
  | x :: xs, y :: ys => x.identical y && identicalItems xs ys
  | _, _ => false
termination_by structural vs => vs

/-- The members have the same keys and identical values, one by one. -/
def identicalMembers : List (String × Json) → List (String × Json) → Bool
  | [], [] => true
  | (k, v) :: rest, (l, w) :: others => k == l && v.identical w && identicalMembers rest others
  | _, _ => false
termination_by structural ms => ms

end

mutual

theorem identical_iff : ∀ v w : Json, v.identical w = true ↔ v = w
  | null, w => by cases w <;> simp [identical]
  | bool a, w => by cases w <;> simp [identical]
  | number a, w => by cases w <;> simp [identical]
  | string a, w => by cases w <;> simp [identical]
  | array xs, w => by cases w <;> simp [identical, identicalItems_iff xs]
  | object ms, w => by cases w <;> simp [identical, identicalMembers_iff ms]

theorem identicalItems_iff : ∀ xs ys : List Json, identicalItems xs ys = true ↔ xs = ys
  | [], ys => by cases ys <;> simp [identicalItems]
  | x :: xs, ys => by cases ys <;> simp [identicalItems, identical_iff x, identicalItems_iff xs]

theorem identicalMembers_iff : ∀ ms ns : List (String × Json), identicalMembers ms ns = true ↔ ms = ns
  | [], ns => by cases ns <;> simp [identicalMembers]
  | (k, v) :: rest, ns => by
    cases ns <;> simp [identicalMembers, identical_iff v, identicalMembers_iff rest, Prod.ext_iff]

end

instance : DecidableEq Json := fun v w => decidable_of_iff _ (identical_iff v w)

/-! ## Keys -/

mutual

/-- The text of a value as a key: a string is its own, the items of an array are joined by commas,
and an object says no more than that it is one. -/
def keyText : Json → String
  | null => "null"
  | bool b => if b then "true" else "false"
  | number n => String.ofList n.keyText
  | string s => s
  | array items => ",".intercalate (itemKeyTexts items)
  | object _ => "[object Object]"
termination_by structural v => v

/-- The texts of the items of an array in its key: nothing for null. -/
def itemKeyTexts : List Json → List String
  | [] => []
  | v :: rest =>
    (match v with
      | null => ""
      | _ => v.keyText) :: itemKeyTexts rest
termination_by structural vs => vs

end

end Json

end StateScript
