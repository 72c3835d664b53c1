/-
The lens laws of reading and writing. What a write puts at a place is read there, a second write at
the place leaves what it alone would have left, and where something is read every write succeeds, the
one of the value read changing nothing. A change in place is a write of the changed value.

All laws go down the path once, by the laws of one segment. A write may make containers, fill up an
array and replace scalars on its way; what carries the induction is that the containers which it goes
through are there afterwards, so that a second write goes through the same ones.
-/
import StateScript.Proofs.Tree.Refusal

namespace StateScript.Json

/-! ## What a write leaves on its way -/

/-- What has been put under a segment can be put there again. -/
theorem refusal?_withChild_self {node : Json} {key : String} (h : node.refusal? key = none) (child : Json) :
    (node.withChild key child).refusal? key = none :=
  refusal?_of_child? (child?_withChild_self h child)

theorem readied_of_get? {node value : Json} {rest : List String} (h : node.get? rest = some value) :
    node.readied rest = node := by
  cases rest with
  | nil => rfl
  | cons key rest => exact readied_of_isContainer (isContainer_of_get?_cons h) _

/-- A write goes on into what an earlier one left as it is. -/
theorem readied_tree_write (node value : Json) (rest : List String) :
    ((node.readied rest).write rest value).tree.readied rest = ((node.readied rest).write rest value).tree := by
  cases rest with
  | nil => rfl
  | cons key rest =>
    have hcontainer : (node.readied (key :: rest)).isContainer = true := isContainer_readied_cons node key rest
    exact readied_of_isContainer (isContainer_tree_write hcontainer key rest value) _

/-- The steps of a write that succeeds: the segment is not refused, and the write goes on below it. -/
theorem error?_write_cons {node value : Json} {key : String} {rest : List String}
    (h : (node.write (key :: rest) value).error? = none) :
    node.refusal? key = none ∧ ((((node.child? key).getD null).readied rest).write rest value).error? = none := by
  rw [write] at h
  split at h
  · cases h
  · next hr => exact ⟨hr, h⟩

theorem write_cons {node : Json} {key : String} (hr : node.refusal? key = none) (rest : List String) (value : Json) :
    node.write (key :: rest) value =
      ⟨node.withChild key ((((node.child? key).getD null).readied rest).write rest value).tree,
        ((((node.child? key).getD null).readied rest).write rest value).error?⟩ := by
  rw [write, hr]

/-! ## Reading and writing -/

/-- A written value is read. -/
theorem get?_tree_write {value : Json} : ∀ {node : Json} {path : List String},
    (node.write path value).error? = none → (node.write path value).tree.get? path = some value
  | _, [], _ => rfl
  | node, key :: rest, h => by
    obtain ⟨hr, hbelow⟩ := error?_write_cons h
    rw [write_cons hr, get?, child?_withChild_self hr, Option.bind_some]
    exact get?_tree_write hbelow

/-- Of two writes at a place the second stands. -/
theorem write_tree_write {first : Json} (second : Json) : ∀ {node : Json} {path : List String},
    (node.write path first).error? = none →
      (node.write path first).tree.write path second = node.write path second
  | _, [], _ => rfl
  | node, key :: rest, h => by
    obtain ⟨hr, hbelow⟩ := error?_write_cons h
    have ih := write_tree_write second hbelow
    rw [write_cons hr rest first, write_cons hr rest second, write_cons (refusal?_withChild_self hr _),
      child?_withChild_self hr, Option.getD_some, readied_tree_write, ih, withChild_withChild]

/-- Writing what is read changes nothing. -/
theorem write_of_get? {value : Json} : ∀ {node : Json} {path : List String},
    node.get? path = some value → node.write path value = ⟨node, none⟩
  | _, [], h => by cases h; rfl
  | node, key :: rest, h => by
    obtain ⟨child, hc, hv⟩ := Option.bind_eq_some_iff.1 h
    rw [write_cons (refusal?_of_child? hc), hc, Option.getD_some, readied_of_get? hv, write_of_get? hv,
      withChild_of_child? hc]

/-- A change in place is a write of the changed value. -/
theorem update?_eq_write (f : Json → Json) {value : Json} : ∀ {node : Json} {path : List String},
    node.get? path = some value → node.update? f path = some (node.write path (f value)).tree
  | _, [], h => by cases h; rfl
  | node, key :: rest, h => by
    obtain ⟨child, hc, hv⟩ := Option.bind_eq_some_iff.1 h
    rw [update?, hc, Option.bind_some, update?_eq_write f hv, Option.map_some,
      write_cons (refusal?_of_child? hc), hc, Option.getD_some, readied_of_get? hv]

/-! ## The laws together -/

/-- The lens laws along a path: put then get, put then put, and get then put. -/
theorem write_lens (root : Json) (path : Path) :
    (∀ v root', root.write path.segments v = ⟨root', none⟩ →
      root'.get? path.segments = some v ∧
      ∀ w, ∃ root'', root'.write path.segments w = ⟨root'', none⟩ ∧ root.write path.segments w = ⟨root'', none⟩) ∧
    ∀ v, root.get? path.segments = some v →
      (∀ w, ∃ root', root.write path.segments w = ⟨root', none⟩) ∧ root.write path.segments v = ⟨root, none⟩ := by
  have hwritable : ∀ {tree v : Json}, tree.get? path.segments = some v →
      ∀ w, ∃ tree', tree.write path.segments w = ⟨tree', none⟩ := by
    intro tree v h w
    refine ⟨(tree.write path.segments w).tree, ?_⟩
    rw [← @error?_write_of_get? w v tree path.segments h]
  constructor
  · intro v root' hwrite
    have herror : (root.write path.segments v).error? = none := by rw [hwrite]
    have hget := get?_tree_write herror
    have hsecond := fun w => write_tree_write w herror
    rw [hwrite] at hget hsecond
    refine ⟨hget, ?_⟩
    intro w
    obtain ⟨root'', hw⟩ := hwritable hget w
    exact ⟨root'', hw, (hsecond w).symm.trans hw⟩
  · intro v hget
    exact ⟨hwritable hget, write_of_get? hget⟩

/-- A scalar gives way to an array, filled up for the index and holding an object for the key: what is
written there is read, written over and written back. -/
theorem write_lens_replaced_scalar :
    let path : Path := ⟨"a[2].x", ["a", "2", "x"], by decide⟩
    let root : Json := .object [("a", .bool false), ("b", .null)]
    let root' : Json := .object [("a", .array [.null, .null, .object [("x", .string "v")]]), ("b", .null)]
    root.write path.segments (.string "v") = ⟨root', none⟩ ∧
      root'.get? path.segments = some (.string "v") ∧
      (∃ root'', root'.write path.segments (.array []) = ⟨root'', none⟩ ∧
        root.write path.segments (.array []) = ⟨root'', none⟩) ∧
      root'.write path.segments (.string "v") = ⟨root', none⟩ := by
  intro path root root'
  have hwrite : root.write path.segments (.string "v") = ⟨root', none⟩ := rfl
  obtain ⟨hget, hagain⟩ := (write_lens root path).1 _ _ hwrite
  exact ⟨hwrite, hget, hagain (.array []), ((write_lens root' path).2 _ hget).2⟩

end StateScript.Json
