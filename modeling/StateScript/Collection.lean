/-
Changing a collection in place. The list of a tuple `[list, label]` is its first item, that of any
other array is the array. A place in a list is counted like a splice: a number is cut to its whole
part, a negative one counts from the end, and what lies outside the list goes to its nearer end.
-/
import StateScript.Json.Merge
import StateScript.Operand.Basic

namespace StateScript

/-- The place in a list of this length that a number counts to. -/
def Number.spliceIndex (n : Number) (length : Nat) : Nat :=
  if n.truncate < 0 then (length + n.truncate).toNat else min n.truncate.toNat length

/-- A number counts to a place in the list, or to its end. -/
theorem Number.spliceIndex_le (n : Number) (length : Nat) : n.spliceIndex length ≤ length := by
  unfold Number.spliceIndex
  split <;> omega

namespace Operand

/-- What an operand adds to a list: the items of an array, or itself. -/
def flattened : Operand → List Json
  | value (.array items) => items
  | operand => [operand.toJson]

end Operand

namespace Json

/-- The collection with its list changed. -/
def onList (f : List Json → List Json) : Json → Json
  | array [array items, string label] => array [array (f items), string label]
  | array items => array (f items)
  | node => node

/-- The collection with an operand added: at the end of a list, or merged into an object if it is one
itself. -/
def extended (operand : Operand) : Json → Json
  | object members =>
    match operand with
    | .value (object incoming) => object (mergeMembers members incoming)
    | _ => object members
  | node => node.onList (· ++ operand.flattened)

/-- The list without the item that an operand selects: a number by its place, if that is in the list,
anything else by equality with the first such item. -/
def withoutItem (operand : Operand) (items : List Json) : List Json :=
  match operand.number? with
  | some n => items.eraseIdx (n.spliceIndex items.length)
  | none => items.eraseP (·.same operand.toJson)

/-- The collection without the entry that an operand selects, which is a key in an object. -/
def withoutEntry (operand : Operand) : Json → Json
  | object members => object (Members.erase operand.keyText members)
  | node => node.onList (withoutItem operand)

/-- The collection with a further entry: before the place of an array that a number counts to, or
under a key of an object. Nothing else takes an entry. -/
def withEntry? (key value : Operand) : Json → Option Json
  | array items => key.number?.map fun n => array (items.insertIdx (n.spliceIndex items.length) value.toJson)
  | object members => some (object (Members.put key.keyText value.toJson members))
  | _ => none

end Json

end StateScript
