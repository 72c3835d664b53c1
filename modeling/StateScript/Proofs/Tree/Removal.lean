/-
What a removal takes away: one slot, and nothing else. It finds something just when a read does. Then the tree
that it leaves is the one with the parent written back without the slot: an object lacks the key, and the others
keep their values and their order; an array is as long as before, with null for the item. A member that was put
behind the others of an object that stood there is taken away without a trace.

A removal goes down the tree by its own cases. All that is said of it comes from one lemma, which puts it as a write
of the changed parent; the rest is what a write at a place does there and elsewhere.
-/
import StateScript.Proofs.Tree.Edit

namespace StateScript

open Members (keys)

namespace Json

variable {root parent child value : Json} {front : List String} {key : String} {members : List (String × Json)}

/-! ## One container -/

/-- A container, and what is left of it without the slot under a key. -/
inductive Vacated (key : String) : Json → Json → Prop where
  | member {members others : List (String × Json)} (horder : keys others = (keys members).filter (· ≠ key))
    (hvalues : ∀ name, name ≠ key → Members.get? name others = Members.get? name members) :
    Vacated key (object members) (object others)
  | item {items others : List Json} {index : Nat} (hindex : arrayIndex? key = some index)
    (hlength : others.length = items.length) (hitem : others[index]? = some null)
    (hothers : ∀ i, i ≠ index → others[i]? = items[i]?) : Vacated key (array items) (array others)

theorem vacated_withoutChild (h : parent.child? key = some child) : Vacated key parent (parent.withoutChild key) := by
  cases parent with
  | array items =>
    obtain ⟨index, hindex, hitem⟩ := Option.bind_eq_some_iff.1 h
    obtain ⟨hlt, -⟩ := List.getElem?_eq_some_iff.1 hitem
    rw [withoutChild, hindex]
    exact .item hindex List.length_set (List.getElem?_set_self hlt) fun i hi => List.getElem?_set_ne (Ne.symm hi)
  | object members =>
    exact .member (Members.keys_erase key members) fun name hname => Members.get?_erase_of_ne hname members
  | _ => cases h

theorem Vacated.child? {left : Json} (h : Vacated key parent left) : left.child? key = parent.vacant := by
  cases h with
  | member horder _ =>
    refine Members.get?_eq_none_iff.2 ?_
    rw [horder]
    simp
  | item hindex _ hitem _ => simp only [Json.child?, hindex, Option.bind_some, hitem, vacant]

/-! ## Along a path -/

theorem get?_append (root : Json) (front rest : List String) :
    root.get? (front ++ rest) = (root.get? front).bind (·.get? rest) := by
  induction front generalizing root with
  | nil => rfl
  | cons segment front ih =>
    rw [List.cons_append, get?, get?]
    cases root.child? segment with
    | none => rfl
    | some child => exact ih child

theorem get?_concat (h : root.get? front = some parent) (key : String) :
    root.get? (front ++ [key]) = parent.child? key := by
  rw [get?_append, h, Option.bind_some, get?]
  cases parent.child? key <;> rfl

/-- A removal is a write of the parent without the slot, where there is something under the key. -/
theorem erase?_concat (h : root.get? front = some parent) (key : String) :
    root.erase? (front ++ [key]) =
      (parent.child? key).map fun _ => (root.write front (parent.withoutChild key)).tree := by
  induction front generalizing root with
  | nil => cases h; rfl
  | cons segment front ih =>
    obtain ⟨child, hchild, h⟩ := Option.bind_eq_some_iff.1 h
    rw [List.cons_append, erase?, hchild, Option.bind_some, ih h, write_cons (refusal?_of_child? hchild), hchild,
      Option.getD_some, readied_of_get? h, Option.map_map]
    · rfl
    · simp

/-- A write behind a container that stands there writes the container back. -/
theorem write_append (h : root.get? front = some parent) (hparent : parent.isContainer = true) (key : String)
    (rest : List String) (value : Json) :
    root.write (front ++ key :: rest) value =
      ⟨(root.write front (parent.write (key :: rest) value).tree).tree, (parent.write (key :: rest) value).error?⟩ := by
  induction front generalizing root with
  | nil => cases h; rfl
  | cons segment front ih =>
    obtain ⟨child, hchild, h⟩ := Option.bind_eq_some_iff.1 h
    have hcontainer : child.readied (front ++ key :: rest) = child := by
      cases front with
      | nil => cases h; exact readied_of_isContainer hparent _
      | cons next front => exact readied_of_isContainer (isContainer_of_get?_cons h) _
    rw [List.cons_append, write_cons (refusal?_of_child? hchild), write_cons (refusal?_of_child? hchild), hchild,
      Option.getD_some, hcontainer, readied_of_get? h, ih h]

theorem exists_parent_of_get?_concat {front : List String} (h : root.get? (front ++ [key]) = some value) :
    ∃ parent, root.get? front = some parent ∧ parent.child? key = some value := by
  rw [get?_append] at h
  obtain ⟨parent, hparent, h⟩ := Option.bind_eq_some_iff.1 h
  obtain ⟨child, hchild, h⟩ := Option.bind_eq_some_iff.1 h
  cases h
  exact ⟨parent, hparent, hchild⟩

/-- There is something to take away just where there is something to read. -/
theorem isSome_erase? (root : Json) (path : Path) :
    (root.erase? path.segments).isSome = (root.get? path.segments).isSome := by
  cases hget : root.get? path.segments with
  | none => rw [erase?_of_get?_eq_none hget]
  | some value =>
    have hpath := List.dropLast_append_getLast path.nonempty
    rw [← hpath] at hget ⊢
    obtain ⟨parent, hparent, hchild⟩ := exists_parent_of_get?_concat hget
    rw [erase?_concat hparent, hchild]
    rfl

theorem write_eq_of_get? (h : root.get? front = some parent) (value : Json) :
    root.write front value = ⟨(root.write front value).tree, none⟩ := by
  rw [← @error?_write_of_get? value parent root front h]

theorem get?_of_write_eq {left : Json} (h : root.write front value = ⟨left, none⟩) : left.get? front = some value := by
  have hget := get?_tree_write (congrArg Written.error? h)
  rwa [h] at hget

/-- What a removal leaves is the tree with the parent changed. -/
theorem exists_vacated {left : Json} (h : root.erase? (front ++ [key]) = some left) :
    ∃ parent rest, root.get? front = some parent ∧ Vacated key parent rest ∧ root.write front rest = ⟨left, none⟩ := by
  cases hget : root.get? (front ++ [key]) with
  | none =>
    rw [erase?_of_get?_eq_none hget] at h
    cases h
  | some value =>
    obtain ⟨parent, hparent, hchild⟩ := exists_parent_of_get?_concat hget
    rw [erase?_concat hparent, hchild] at h
    cases h
    exact ⟨parent, _, hparent, vacated_withoutChild hchild, write_eq_of_get? hparent _⟩

/-- A new member of an object that stood there can be taken away again, which leaves the tree as it was. -/
theorem erase?_write_of_not_mem (h : root.get? front = some (object members)) (hkey : key ∉ keys members)
    (value : Json) :
    ∃ root', root.write (front ++ [key]) value = ⟨root', none⟩ ∧ root'.erase? (front ++ [key]) = some root := by
  have hwrite := write_eq_of_get? h (object (Members.put key value members))
  have herror : (root.write front (object (Members.put key value members))).error? = none := by rw [hwrite]
  refine ⟨(root.write front (object (Members.put key value members))).tree, write_append h rfl key [] value, ?_⟩
  rw [erase?_concat (get?_tree_write herror), child?, Members.get?_put_self, Option.map_some,
    write_tree_write _ herror, withoutChild, Members.erase_put, Members.erase_of_not_mem hkey, write_of_get? h]

end Json

/-- A removal at a path takes away exactly one slot, if the path leads to one: the tree is then the one with the
parent written back as it was but for the slot, which is gone from an object and null in an array. If the path
leads nowhere, the tree stays. And it undoes a write of a new member. -/
theorem Path.erase_one_slot (path : Path) (root : Json) :
    (root.erase? path.segments).isSome = (root.get? path.segments).isSome ∧
    (root.erase? path.segments = none → (path.erase root).tree = root) ∧
    (∀ left, root.erase? path.segments = some left → (path.erase root).tree = left ∧
      ∃ front key parent rest, path.segments = front ++ [key] ∧ root.get? front = some parent ∧
        Json.Vacated key parent rest ∧ root.write front rest = ⟨left, none⟩ ∧
        left.get? path.segments = parent.vacant) ∧
    ∀ front key members value, path.segments = front ++ [key] → root.get? front = some (.object members) →
      key ∉ keys members →
      ∃ root', root.write path.segments value = ⟨root', none⟩ ∧ root'.erase? path.segments = some root := by
  refine ⟨Json.isSome_erase? root path, ?_, ?_, ?_⟩
  · intro h
    rw [erase, h, Option.getD_none]
  · intro left h
    have hpath := (List.dropLast_append_getLast path.nonempty).symm
    rw [erase, h, Option.getD_some]
    refine ⟨rfl, path.segments.dropLast, path.segments.getLast path.nonempty, ?_⟩
    rw [hpath] at h
    obtain ⟨parent, rest, hparent, hvacated, hwrite⟩ := Json.exists_vacated h
    refine ⟨parent, rest, hpath, hparent, hvacated, hwrite, ?_⟩
    rw [← hvacated.child?, ← Json.get?_concat (Json.get?_of_write_eq hwrite), ← hpath]
  · intro front key members value hpath hparent hkey
    rw [hpath]
    exact Json.erase?_write_of_not_mem hparent hkey value

/-- In an item of a list: what was put under `x` goes again, and the item is as before. -/
theorem Path.erase_one_slot_in_item :
    let path : Path := ⟨"list[01].x", ["list", "01", "x"], by decide⟩
    let root : Json := .object [("list", .array [.null, .object [("y", .null)]])]
    let added : Json := .object [("list", .array [.null, .object [("y", .null), ("x", .bool true)]])]
    root.write path.segments (.bool true) = ⟨added, none⟩ ∧ added.erase? path.segments = some root ∧
      (∃ front key parent rest, path.segments = front ++ [key] ∧ added.get? front = some parent ∧
        Json.Vacated key parent rest ∧ added.write front rest = ⟨root, none⟩ ∧
        root.get? path.segments = parent.vacant) ∧
      (path.erase root).tree = root := by
  intro path root added
  have hadded : root.write path.segments (.bool true) = ⟨added, none⟩ := rfl
  obtain ⟨-, hnothing, -, hundone⟩ := erase_one_slot path root
  obtain ⟨root', hwrite, herase⟩ := hundone ["list", "01"] "x" [("y", .null)] (.bool true) rfl rfl (by decide)
  obtain rfl : added = root' := (Json.Written.mk.inj (hadded.symm.trans hwrite)).1
  exact ⟨hadded, herase, ((erase_one_slot path added).2.2.1 root herase).2, hnothing rfl⟩

end StateScript
