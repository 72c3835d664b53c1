/-
What collection commands make of a collection. A command that adds to a collection, puts an entry into
it or takes one out changes in place what its path leads to. What stands there afterwards is said here
as a relation between the collection and its revision, entry by entry and without places computed; the
command is applied, and leaves the tree that a write of the revision at its path leaves.

A change in place is a write of the changed value by the lens laws, so all that is left to compare is
one collection with its revision.
-/
import StateScript.Proofs.Run.Step
import StateScript.Proofs.Tree.Lens

namespace StateScript

/-! ## Places in a list -/

/-- The place in a list of this length that an integer counts to: a negative one counts from the end,
and what lies outside the list goes to its nearer end. -/
def countedPlace (i : Int) (length : Nat) : Nat :=
  (min (max (if i < 0 then length + i else i) 0) length).toNat

theorem Number.spliceIndex_eq_countedPlace (n : Number) (length : Nat) :
    n.spliceIndex length = countedPlace n.truncate length := by
  unfold Number.spliceIndex countedPlace
  split <;> omega

theorem exists_append_of_le {α : Type} {items : List α} {k : Nat} (h : k ≤ items.length) :
    ∃ front back, items = front ++ back ∧ front.length = k :=
  ⟨items.take k, items.drop k, (List.take_append_drop k items).symm, List.length_take_of_le h⟩

theorem insertIdx_length_append {α : Type} (front back : List α) (item : α) :
    (front ++ back).insertIdx front.length item = front ++ item :: back := by
  induction front with
  | nil => exact List.insertIdx_zero
  | cons first front ih => rw [List.cons_append, List.length_cons, List.insertIdx_succ_cons, ih, List.cons_append]

theorem eraseIdx_length_append {α : Type} (front back : List α) (item : α) :
    (front ++ item :: back).eraseIdx front.length = front ++ back := by
  rw [List.eraseIdx_append_of_length_le (Nat.le_refl _), Nat.sub_self]
  rfl

namespace Json

/-! ## Revisions of a list -/

/-- The list with an operand added: each value of an array, or the one value. -/
inductive Added (operand : Operand) (items : List Json) : List Json → Prop
  | each {values : List Json} (h : operand = .value (array values)) : Added operand items (items ++ values)
  | one (h : ∀ values, operand ≠ .value (array values)) : Added operand items (items ++ [operand.toJson])

/-- The list without the item that an operand selects: a number counts to its place, where there may be
none, and any other operand selects the first item equal to it, if there is one. -/
inductive Dropped (operand : Operand) : List Json → List Json → Prop
  | counted {n : Number} {front back : List Json} {item : Json} (hn : operand.number? = some n)
    (hplace : countedPlace n.truncate (front ++ item :: back).length = front.length) :
    Dropped operand (front ++ item :: back) (front ++ back)
  | behind {n : Number} {items : List Json} (hn : operand.number? = some n)
    (hplace : countedPlace n.truncate items.length = items.length) : Dropped operand items items
  | equal {front back : List Json} {item : Json} (hn : operand.number? = none)
    (hfront : ∀ other ∈ front, other.same operand.toJson = false) (hitem : item.same operand.toJson = true) :
    Dropped operand (front ++ item :: back) (front ++ back)
  | absent {items : List Json} (hn : operand.number? = none)
    (hitems : ∀ other ∈ items, other.same operand.toJson = false) : Dropped operand items items

theorem added_iff {operand : Operand} {items new : List Json} :
    Added operand items new ↔ new = items ++ operand.flattened := by
  constructor
  · rintro (h | h)
    · rw [h]
      rfl
    · unfold Operand.flattened
      split
      · next values => exact absurd rfl (h values)
      · rfl
  · rintro rfl
    unfold Operand.flattened
    split
    · exact .each rfl
    · next h => exact .one h

theorem dropped_withoutItem (operand : Operand) (items : List Json) :
    Dropped operand items (withoutItem operand items) := by
  unfold withoutItem
  split
  · next n hn =>
    obtain ⟨front, back, hitems, hlength⟩ := exists_append_of_le (n.spliceIndex_le items.length)
    have hplace : countedPlace n.truncate items.length = front.length := by
      rw [hlength, Number.spliceIndex_eq_countedPlace]
    rw [← hlength]
    rw [hitems] at hplace ⊢
    cases back with
    | nil =>
      rw [List.append_nil] at hplace ⊢
      rw [List.eraseIdx_of_length_le (Nat.le_refl _)]
      exact .behind hn hplace
    | cons item back =>
      rw [eraseIdx_length_append]
      exact .counted hn hplace
  · next hn =>
    by_cases hfound : ∃ item ∈ items, item.same operand.toJson = true
    · obtain ⟨item, hmem, hitem⟩ := hfound
      obtain ⟨first, front, back, hfront, hfirst, hitems, herase⟩ :=
        List.exists_of_eraseP (p := (·.same operand.toJson)) hmem hitem
      rw [herase, hitems]
      refine .equal hn ?_ hfirst
      intro other hother
      exact Bool.eq_false_iff.2 (hfront other hother)
    · have hnone : ∀ item ∈ items, ¬ item.same operand.toJson = true := by
        intro item hmem hitem
        exact hfound ⟨item, hmem, hitem⟩
      rw [List.eraseP_of_forall_not hnone]
      exact .absent hn fun item hmem => Bool.eq_false_iff.2 (hnone item hmem)

theorem dropped_iff {operand : Operand} {items new : List Json} :
    Dropped operand items new ↔ new = withoutItem operand items := by
  constructor
  · intro h
    unfold withoutItem
    cases h with
    | @counted n front back item hn hplace =>
      simp only [hn]
      rw [Number.spliceIndex_eq_countedPlace, hplace, eraseIdx_length_append]
    | @behind n _ hn hplace =>
      simp only [hn]
      rw [Number.spliceIndex_eq_countedPlace, hplace, List.eraseIdx_of_length_le (Nat.le_refl _)]
    | @equal front back item hn hfront hitem =>
      simp only [hn]
      rw [List.eraseP_append_right _ fun other hother => Bool.eq_false_iff.1 (hfront other hother)]
      simp only [List.eraseP_cons, hitem, cond_true]
    | absent hn hitems =>
      simp only [hn]
      rw [List.eraseP_of_forall_not fun other hother => Bool.eq_false_iff.1 (hitems other hother)]
  · rintro rfl
    exact dropped_withoutItem operand items

/-! ## Revisions of a collection -/

/-- The collection with its list revised: of a tuple the list that its label stands behind, and of any
other array the array itself. -/
inductive OnList (R : List Json → List Json → Prop) : Json → Json → Prop
  | tuple {items new : List Json} {label : String} (h : R items new) :
    OnList R (array [array items, string label]) (array [array new, string label])
  | plain {items new : List Json} (htuple : isTuple (array items) = false) (h : R items new) :
    OnList R (array items) (array new)

/-- The collection with an operand added to its list or merged into the object. An object takes in
nothing but objects. -/
inductive Extended (operand : Operand) : Json → Json → Prop
  | list {collection new : Json} (h : OnList (Added operand) collection new) : Extended operand collection new
  | merged {members incoming : List (String × Json)} (h : operand = .value (object incoming)) :
    Extended operand (object members) (object (mergeMembers members incoming))
  | kept {members : List (String × Json)} (h : ∀ incoming, operand ≠ .value (object incoming)) :
    Extended operand (object members) (object members)

/-- The collection with a further entry: before the place in an array, tuples included, that a number
counts to, and under the key of an object. Where an array is given another key, an object of the one
entry takes its place. -/
inductive Inserted (key value : Operand) : Json → Json → Prop
  | counted {n : Number} {front back : List Json} (hn : key.number? = some n)
    (hplace : countedPlace n.truncate (front ++ back).length = front.length) :
    Inserted key value (array (front ++ back)) (array (front ++ value.toJson :: back))
  | replaced {items : List Json} (hn : key.number? = none) :
    Inserted key value (array items) (object [(key.keyText, value.toJson)])
  | put {members : List (String × Json)} :
    Inserted key value (object members) (object (Members.put key.keyText value.toJson members))

/-- The collection without the entry that an operand selects: an item of its list, or the member of an
object under the operand's key. -/
inductive Removed (operand : Operand) : Json → Json → Prop
  | list {collection new : Json} (h : OnList (Dropped operand) collection new) : Removed operand collection new
  | member {members : List (String × Json)} :
    Removed operand (object members) (object (members.filter (·.1 ≠ operand.keyText)))

theorem exists_of_isTuple {items : List Json} (h : isTuple (array items) = true) :
    ∃ inner label, items = [array inner, string label] := by
  unfold isTuple at h
  split at h
  · next inner label heq => exact ⟨inner, label, array.inj heq⟩
  · cases h

theorem onList_of_not_isTuple {items : List Json} (h : isTuple (array items) = false) (f : List Json → List Json) :
    onList f (array items) = array (f items) := by
  rw [onList]
  rintro inner label rfl
  cases h

/-- Where a list has one revision, a collection with that list has. -/
theorem onList_iff {R : List Json → List Json → Prop} {f : List Json → List Json}
    (hR : ∀ {items new}, R items new ↔ new = f items) {items : List Json} {new : Json} :
    OnList R (array items) new ↔ new = onList f (array items) := by
  constructor
  · intro h
    cases h with
    | tuple h => rw [hR.1 h]; rfl
    | plain htuple h => rw [hR.1 h, onList_of_not_isTuple htuple]
  · rintro rfl
    cases htuple : isTuple (array items) with
    | true =>
      obtain ⟨inner, label, rfl⟩ := exists_of_isTuple htuple
      exact .tuple (hR.2 rfl)
    | false =>
      rw [onList_of_not_isTuple htuple]
      exact .plain htuple (hR.2 rfl)

theorem extended_iff {operand : Operand} {collection new : Json} (hcollection : collection.isContainer = true) :
    Extended operand collection new ↔ new = extended operand collection := by
  cases collection with
  | array items =>
    show _ ↔ new = onList (· ++ operand.flattened) (array items)
    rw [← onList_iff (R := Added operand) added_iff]
    constructor
    · rintro ⟨h⟩
      exact h
    · exact .list
  | object members =>
    by_cases hobject : ∃ incoming, operand = .value (object incoming)
    · obtain ⟨incoming, rfl⟩ := hobject
      constructor
      · rintro (h | h | h)
        · cases h
        · cases h; rfl
        · exact absurd rfl (h incoming)
      · rintro rfl
        exact .merged rfl
    · have hother : ∀ incoming, operand ≠ .value (object incoming) := fun incoming h => hobject ⟨incoming, h⟩
      have hkept : extended operand (object members) = object members := by
        cases operand with
        | undefined => rfl
        | value json =>
          cases json with
          | object incoming => exact absurd rfl (hother incoming)
          | _ => rfl
      rw [hkept]
      constructor
      · rintro (h | h | _)
        · cases h
        · exact absurd h (hother _)
        · rfl
      · rintro rfl
        exact .kept hother
  | _ => cases hcollection

theorem removed_iff {operand : Operand} {collection new : Json} (hcollection : collection.isContainer = true) :
    Removed operand collection new ↔ new = withoutEntry operand collection := by
  cases collection with
  | array items =>
    show _ ↔ new = onList (withoutItem operand) (array items)
    rw [← onList_iff (R := Dropped operand) dropped_iff]
    constructor
    · rintro ⟨h⟩
      exact h
    · exact .list
  | object members =>
    constructor
    · rintro (h | _)
      · cases h
      · rfl
    · rintro rfl
      exact .member
  | _ => cases hcollection

/-- The collection takes the entry, or it is an array and the key is no number. -/
theorem inserted_iff {key value : Operand} {collection new : Json} (hcollection : collection.isContainer = true) :
    Inserted key value collection new ↔
      new = (Json.withEntry? key value collection).getD (object [(key.keyText, value.toJson)]) := by
  cases collection with
  | array items =>
    constructor
    · intro h
      cases h with
      | @counted n front back hn hplace =>
        simp only [Json.withEntry?, hn, Option.map_some, Option.getD_some, Number.spliceIndex_eq_countedPlace, hplace,
          insertIdx_length_append]
      | replaced hn => simp only [Json.withEntry?, hn, Option.map_none, Option.getD_none]
    · rintro rfl
      cases hn : key.number? with
      | none =>
        simp only [Json.withEntry?, hn, Option.map_none, Option.getD_none]
        exact .replaced hn
      | some n =>
        obtain ⟨front, back, hitems, hlength⟩ := exists_append_of_le (n.spliceIndex_le items.length)
        simp only [Json.withEntry?, hn, Option.map_some, Option.getD_some, ← hlength]
        rw [hitems, insertIdx_length_append]
        refine .counted hn ?_
        rw [← hitems, ← Number.spliceIndex_eq_countedPlace, hlength]
  | object members =>
    constructor
    · rintro ⟨⟩
      rfl
    · rintro rfl
      exact .put
  | _ => cases hcollection

end Json

/-! ## Commands on a collection -/

namespace Path

variable {path : Path} {root old : Json}

/-- A write where something stands is applied. -/
theorem write_of_get? (h : root.get? path.segments = some old) (value : Json) :
    ∃ root', root.write path.segments value = ⟨root', none⟩ ∧ path.write value root = ⟨root', .applied⟩ := by
  have herror : (root.write path.segments value).error? = none := Json.error?_write_of_get? h
  refine ⟨(root.write path.segments value).tree, by rw [← herror], ?_⟩
  rw [write, Effect.ofWritten, herror]

/-- A change in place of what stands there is applied, and is a write of the changed value. -/
theorem update_of_get? (h : root.get? path.segments = some old) (f : Json → Json) :
    ∃ root', root.write path.segments (f old) = ⟨root', none⟩ ∧ path.update f root = ⟨root', .applied⟩ := by
  obtain ⟨root', hwrite, -⟩ := write_of_get? h (f old)
  refine ⟨root', hwrite, ?_⟩
  rw [update, Json.update?_eq_write f h, hwrite, Option.getD_some]

/-- What is written where something stands is read there. -/
theorem get?_write_of_get? (h : root.get? path.segments = some old) (value : Json) :
    (path.write value root).tree.get? path.segments = some value := by
  rw [write, Effect.tree_ofWritten]
  exact Json.get?_tree_write (Json.error?_write_of_get? h)

theorem get?_update_of_get? (h : root.get? path.segments = some old) (f : Json → Json) :
    (path.update f root).tree.get? path.segments = some (f old) := by
  rw [update, Json.update?_eq_write f h, Option.getD_some]
  exact Json.get?_tree_write (Json.error?_write_of_get? h)

theorem assign_of_get? (h : root.get? path.segments = some old) (hold : old.isContainer = true) (operand : Operand) :
    ∃ root', root.write path.segments (old.extended operand) = ⟨root', none⟩ ∧
      path.assign operand root = ⟨root', .applied⟩ := by
  rw [assign, h, Option.any_some, hold, if_pos rfl]
  exact update_of_get? h _

theorem assignEntry_of_get? (h : root.get? path.segments = some old) (key value : Operand) :
    ∃ root', root.write path.segments ((Json.withEntry? key value old).getD (.object [(key.keyText, value.toJson)])) =
        ⟨root', none⟩ ∧ path.assignEntry key value root = ⟨root', .applied⟩ := by
  rw [assignEntry, h, Option.bind_some]
  cases Json.withEntry? key value old with
  | none => exact write_of_get? h _
  | some new => exact update_of_get? h fun _ => new

end Path

namespace Command

/-- What the command is to make of a collection. -/
def Revises (command : Command) (collection new : Json) : Prop :=
  match command.verb, command.operands with
  | .assign, [operand] | .insert, [operand] => Json.Extended operand collection new
  | .assign, key :: value :: _ | .insert, key :: value :: _ => Json.Inserted key value collection new
  | .remove, operand :: _ => Json.Removed operand collection new
  | _, _ => False

section

variable {command : Command} (path : Path) (root : Json)

theorem onRoot_one_operand (hverb : command.verb = .assign ∨ command.verb = .insert) {operand : Operand}
    (h : command.operands = [operand]) :
    command.onRoot path root = path.assign operand root ∧ command.Revises = Json.Extended operand := by
  unfold operands at h
  unfold onRoot Revises operands
  rw [h]
  rcases hverb with hverb | hverb <;> rw [hverb] <;> exact ⟨rfl, rfl⟩

theorem onRoot_two_operands (hverb : command.verb = .assign ∨ command.verb = .insert) {key value : Operand}
    {rest : List Operand} (h : command.operands = key :: value :: rest) :
    command.onRoot path root = path.assignEntry key value root ∧ command.Revises = Json.Inserted key value := by
  unfold operands at h
  unfold onRoot Revises operands
  rw [h]
  rcases hverb with hverb | hverb <;> rw [hverb] <;> exact ⟨rfl, rfl⟩

theorem onRoot_remove_operand (hverb : command.verb = .remove) {operand : Operand} {rest : List Operand}
    (h : command.operands = operand :: rest) :
    command.onRoot path root = path.removeEntry operand root ∧ command.Revises = Json.Removed operand := by
  unfold operands at h
  unfold onRoot Revises operands
  rw [h, hverb]
  exact ⟨rfl, rfl⟩

end

/-- On a collection, a command that adds to it, puts an entry into it or takes one out is applied. The
collection has one revision by the command, and the tree left is the one that a write of it leaves. -/
theorem onRoot_of_collection {command : Command} {path : Path} {root collection : Json}
    (hget : root.get? path.segments = some collection) (hcollection : collection.isContainer = true)
    (hverb : command.verb = .assign ∨ command.verb = .insert ∨ command.verb = .remove)
    (harguments : 2 ≤ command.arguments.length) :
    ∃ new, (∀ other, command.Revises collection other ↔ other = new) ∧
      ∃ root', root.write path.segments new = ⟨root', none⟩ ∧ command.onRoot path root = ⟨root', .applied⟩ := by
  obtain ⟨operand, rest, hoperands⟩ : ∃ operand rest, command.operands = operand :: rest := by
    refine List.exists_cons_of_length_pos ?_
    rw [operands, List.length_map, List.length_drop]
    omega
  rcases or_assoc.2 hverb with hverb | hverb
  · cases rest with
    | nil =>
      obtain ⟨heffect, hrevises⟩ := onRoot_one_operand path root hverb hoperands
      rw [heffect, hrevises]
      exact ⟨_, fun _ => Json.extended_iff hcollection, Path.assign_of_get? hget hcollection operand⟩
    | cons value rest =>
      obtain ⟨heffect, hrevises⟩ := onRoot_two_operands path root hverb hoperands
      rw [heffect, hrevises]
      exact ⟨_, fun _ => Json.inserted_iff hcollection, Path.assignEntry_of_get? hget operand value⟩
  · obtain ⟨heffect, hrevises⟩ := onRoot_remove_operand path root hverb hoperands
    rw [heffect, hrevises]
    exact ⟨_, fun _ => Json.removed_iff hcollection, Path.update_of_get? hget _⟩

/-- Into the tuple at `bag`, which is an array of two, an item goes before the last place. -/
theorem onRoot_of_collection_tuple :
    let command : Command := ⟨.insert, ["bag", "-1", "7"]⟩
    let path : Path := ⟨"bag", ["bag"], by decide⟩
    let tuple : Json := .array [.array [.null], .string "things"]
    let new : Json := .array [.array [.null], .number (.int 7 (by decide)), .string "things"]
    let root : Json := .object [("bag", tuple), ("n", .null)]
    root.get? path.segments = some tuple ∧ 2 ≤ command.arguments.length ∧
      command.onRoot path root = ⟨.object [("bag", new), ("n", .null)], .applied⟩ := by
  intro command path tuple new root
  have hget : root.get? path.segments = some tuple := rfl
  have harguments : 2 ≤ command.arguments.length := by decide
  obtain ⟨revised, hrevised, root', hwrite, heffect⟩ :=
    onRoot_of_collection hget rfl (.inr (.inl rfl)) harguments
  have hoperands : command.operands =
      [.value (.number (.int (-1) (by decide))), .value (.number (.int 7 (by decide)))] := by decide +kernel
  have hnew : command.Revises tuple new := by
    rw [(onRoot_two_operands path root (.inr rfl) hoperands).2]
    exact @Json.Inserted.counted _ _ (.int (-1) (by decide)) [.array [.null]] [.string "things"] rfl (by decide)
  obtain rfl : new = revised := (hrevised new).1 hnew
  have hroot : root.write path.segments new = ⟨.object [("bag", new), ("n", .null)], none⟩ := rfl
  obtain rfl := congrArg Json.Written.tree (hroot.symm.trans hwrite)
  exact ⟨hget, harguments, heffect⟩

end Command

end StateScript
