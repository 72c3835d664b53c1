/-
Places in a JSON tree, addressed by lists of segments. A segment names a member of an object, or an
item of an array if it is an index. `get?` reads what is at a place, `write` puts a value there and
makes containers on its way, `erase?` takes away what is there, and `update?` changes it in place. All
four go down by the same `child?` and come back by the same `withChild`.
-/
import StateScript.Json.Basic
import StateScript.Path

namespace StateScript

namespace Json

/-- How many items a write may add to an array, nulls before the written one among them. -/
def maxGap : Nat := 1024

/-! ## One segment -/

/-- What a segment addresses in a node. -/
def child? (node : Json) (key : String) : Option Json :=
  match node with
  | array items => (arrayIndex? key).bind fun i => items[i]?
  | object members => Members.get? key members
  | _ => none

/-- The node with a value under a segment. An array is filled up with nulls as far as it must be; in
place of a scalar stands an object with the one member. -/
def withChild (node : Json) (key : String) (child : Json) : Json :=
  match node with
  | array items =>
    match arrayIndex? key with
    | some i => array ((items.rightpad (i + 1) null).set i child)
    | none => array items
  | object members => object (Members.put key child members)
  | _ => object [(key, child)]

/-- The node without what a segment addresses: a member is gone, an item is null. -/
def withoutChild (node : Json) (key : String) : Json :=
  match node with
  | array items =>
    match arrayIndex? key with
    | some i => array (items.set i null)
    | none => array items
  | object members => object (Members.erase key members)
  | _ => node

/-! ## Reading and changing -/

/-- What is at a place. -/
def get? : (node : Json) → (path : List String) → Option Json
  | node, [] => some node
  | node, key :: rest => (node.child? key).bind fun child => child.get? rest

/-- The tree with what is at a place changed, if there is anything. -/
def update? (f : Json → Json) : (node : Json) → (path : List String) → Option Json
  | node, [] => some (f node)
  | node, key :: rest =>
    (node.child? key).bind fun child => (child.update? f rest).map fun changed => node.withChild key changed

/-- The tree without what is at a place, if there is anything. -/
def erase? : (node : Json) → (path : List String) → Option Json
  | _, [] => none
  | node, [key] => (node.child? key).map fun _ => node.withoutChild key
  | node, key :: rest =>
    (node.child? key).bind fun child => (child.erase? rest).map fun changed => node.withChild key changed

/-! ## Writing -/

/-- Why nothing can be written under a segment. -/
inductive WriteError where
  | notAnIndex (segment : String)
  | tooFar (index : Nat)
  deriving DecidableEq, Repr

/-- What stands against writing under a segment: in an array it must be an index, and not too far
behind the last item. -/
def refusal? (node : Json) (key : String) : Option WriteError :=
  match node with
  | array items =>
    match arrayIndex? key with
    | none => some (.notAnIndex key)
    | some i => if items.length + maxGap ≤ i then some (.tooFar i) else none
  | _ => none

/-- The empty container that a segment can be written into. -/
def emptyFor (key : String) : Json := if (arrayIndex? key).isSome then array [] else object []

/-- What a write goes on into: a node that is no container gives way to an empty one for the next
segment. -/
def readied (node : Json) : (rest : List String) → Json
  | [] => node
  | key :: _ => if node.isContainer then node else emptyFor key

/-! ## Laws of one segment -/

/-- Where something is, a write is not refused. -/
theorem refusal?_of_child? {node child : Json} {key : String} (h : node.child? key = some child) :
    node.refusal? key = none := by
  cases node with
  | array items =>
    obtain ⟨i, hi, hget⟩ := Option.bind_eq_some_iff.1 h
    obtain ⟨hlt, _⟩ := List.getElem?_eq_some_iff.1 hget
    have : ¬ items.length + maxGap ≤ i := by omega
    simp [refusal?, hi, this]
  | _ => rfl

/-- What has been put under a segment is there, if the segment was not refused. -/
theorem child?_withChild_self {node : Json} {key : String} (h : node.refusal? key = none) (child : Json) :
    (node.withChild key child).child? key = some child := by
  cases node with
  | array items =>
    cases hi : arrayIndex? key with
    | none => simp [refusal?, hi] at h
    | some i =>
      have hlt : i < (items.rightpad (i + 1) null).length := by
        simp only [List.rightpad, List.length_append, List.length_replicate]
        omega
      simp only [withChild, child?, hi, Option.bind_some, List.getElem?_set_self hlt]
  | object members => simp [withChild, child?]
  | _ => simp [withChild, child?, Members.get?]

/-- Putting back what is there already changes nothing. -/
theorem withChild_of_child? {node child : Json} {key : String} (h : node.child? key = some child) :
    node.withChild key child = node := by
  cases node with
  | array items =>
    obtain ⟨i, hi, hget⟩ := Option.bind_eq_some_iff.1 h
    obtain ⟨hlt, he⟩ := List.getElem?_eq_some_iff.1 hget
    have hpad : items.rightpad (i + 1) null = items := by
      rw [List.rightpad, Nat.sub_eq_zero_of_le hlt, List.replicate_zero, List.append_nil]
    simp only [withChild, hi, hpad, ← he, List.set_getElem_self]
  | object members => simp only [withChild, Members.put_of_get? h]
  | _ => cases h

/-- Of two values put under one segment the second stands. -/
theorem withChild_withChild (node : Json) (key : String) (first second : Json) :
    (node.withChild key first).withChild key second = node.withChild key second := by
  cases node with
  | array items =>
    cases hi : arrayIndex? key with
    | none => simp only [withChild, hi]
    | some i =>
      have hpad : ((items.rightpad (i + 1) null).set i first).rightpad (i + 1) null =
          (items.rightpad (i + 1) null).set i first := by
        have hlt : i + 1 ≤ ((items.rightpad (i + 1) null).set i first).length := by
          simp only [List.length_set, List.rightpad, List.length_append, List.length_replicate]
          omega
        rw [List.rightpad, Nat.sub_eq_zero_of_le hlt, List.replicate_zero, List.append_nil]
      simp only [withChild, hi, hpad, List.set_set]
  | object members => simp only [withChild, Members.put_put]
  | _ => simp [withChild, Members.put]

/-- A node that a path goes on from is a container. -/
theorem isContainer_of_get?_cons {node value : Json} {key : String} {rest : List String}
    (h : node.get? (key :: rest) = some value) : node.isContainer = true := by
  cases node <;> first | rfl | cases h

theorem isContainer_emptyFor (key : String) : (emptyFor key).isContainer = true := by
  unfold emptyFor
  split <;> rfl

theorem isContainer_withChild (node : Json) (key : String) (child : Json) :
    (node.withChild key child).isContainer = true := by
  cases node with
  | array items =>
    rw [withChild]
    split <;> rfl
  | _ => rfl

/-- A container is written into as it is. -/
theorem readied_of_isContainer {node : Json} (h : node.isContainer = true) (rest : List String) :
    node.readied rest = node := by
  cases rest with
  | nil => rfl
  | cons key rest => simp only [readied, h, if_true]

theorem isContainer_readied_cons (node : Json) (key : String) (rest : List String) :
    (node.readied (key :: rest)).isContainer = true := by
  rw [readied]
  split
  · assumption
  · exact isContainer_emptyFor key

/-! ## Writes -/

/-- What a write leaves: the tree, and why it stopped if it did. A write that stops keeps what it has
made on its way. -/
structure Written where
  tree : Json
  error? : Option WriteError

/-- The tree with a value at a place. What is missing on the way counts as null. -/
def write : (node : Json) → (path : List String) → (value : Json) → Written
  | _, [], value => ⟨value, none⟩
  | node, key :: rest, value =>
    match node.refusal? key with
    | some error => ⟨node, some error⟩
    | none =>
      let below := (((node.child? key).getD null).readied rest).write rest value
      ⟨node.withChild key below.tree, below.error?⟩

end Json

end StateScript
