/-
How many nodes a change adds to a tree, each scalar, array and object counted once. A write adds those of its value
and, for every segment on its way, no more than an array may be filled up with; also one that is refused further
down. Of the changes in place, a removal adds nothing, and an addition no more nodes than come in.

The size of an array is the sum over its items in any order, and that of an object the sum over its members, so one
slot that is changed counts for itself: the sizes before and after, each with the other's value, come to the same.
-/
import StateScript.Collection
import StateScript.Tree
import Mathlib.Data.List.InsertIdx

namespace StateScript.Json

/-! ## Counting nodes -/

mutual

/-- The number of scalars, arrays and objects in a value, itself among them. -/
def size : Json → Nat
  | array items => sizeOfItems items + 1
  | object members => sizeOfMembers members + 1
  | _ => 1
termination_by structural v => v

/-- The nodes of the items together. -/
def sizeOfItems : List Json → Nat
  | [] => 0
  | v :: rest => v.size + sizeOfItems rest
termination_by structural vs => vs

/-- The nodes of the values of the members together. -/
def sizeOfMembers : List (String × Json) → Nat
  | [] => 0
  | (_, v) :: rest => v.size + sizeOfMembers rest
termination_by structural ms => ms

end

variable {k : Nat} {node child value : Json} {key : String} {items others : List Json} {members : List (String × Json)}

theorem size_pos (node : Json) : 0 < node.size := by
  cases node <;> exact Nat.succ_pos _

theorem size_of_not_container (h : node.isContainer = false) : node.size = 1 := by
  cases node <;> first | rfl | cases h

/-! ## Items -/

theorem sizeOfItems_append (items others : List Json) :
    sizeOfItems (items ++ others) = sizeOfItems items + sizeOfItems others := by
  induction items with
  | nil => exact (Nat.zero_add _).symm
  | cons v rest ih => rw [List.cons_append, sizeOfItems, sizeOfItems, ih, Nat.add_assoc]

theorem sizeOfItems_perm (h : items.Perm others) : sizeOfItems items = sizeOfItems others := by
  induction h with
  | nil => rfl
  | cons v _ ih => rw [sizeOfItems, sizeOfItems, ih]
  | swap v w rest => exact Nat.add_left_comm w.size v.size (sizeOfItems rest)
  | trans _ _ ih₁ ih₂ => exact ih₁.trans ih₂

theorem sizeOfItems_le_of_sublist (h : items.Sublist others) : sizeOfItems items ≤ sizeOfItems others := by
  induction h with
  | slnil => exact Nat.le_refl _
  | cons v _ ih => exact Nat.le_trans ih (Nat.le_add_left _ v.size)
  | cons_cons v _ ih => exact Nat.add_le_add_left ih v.size

theorem sizeOfItems_replicate_null (n : Nat) : sizeOfItems (List.replicate n null) = n := by
  induction n with
  | zero => rfl
  | succ n ih =>
    have hnull : null.size = 1 := rfl
    rw [List.replicate_succ, sizeOfItems, ih, hnull, Nat.add_comm]

theorem sizeOfItems_set {i : Nat} {old : Json} (h : items[i]? = some old) (new : Json) :
    sizeOfItems (items.set i new) + old.size = sizeOfItems items + new.size := by
  induction items generalizing i with
  | nil => cases h
  | cons v rest ih =>
    cases i with
    | zero =>
      cases h
      simp only [List.set_cons_zero, sizeOfItems]
      omega
    | succ i =>
      have hrest := ih h
      simp only [List.set_cons_succ, sizeOfItems]
      omega

theorem sizeOfItems_insertIdx {i : Nat} (h : i ≤ items.length) (value : Json) :
    sizeOfItems (items.insertIdx i value) = sizeOfItems items + value.size := by
  rw [sizeOfItems_perm (List.perm_insertIdx value items h), sizeOfItems, Nat.add_comm]

/-! ## Members -/

theorem sizeOfMembers_put (key : String) (value : Json) (members : List (String × Json)) :
    sizeOfMembers (Members.put key value members) + (Members.get? key members).elim 0 size =
      sizeOfMembers members + value.size := by
  induction members with
  | nil => simp [Members.put, Members.get?, sizeOfMembers]
  | cons m rest ih =>
    obtain ⟨name, v⟩ := m
    by_cases h : name = key
    · simp only [Members.put, Members.get?, h, if_true, sizeOfMembers, Option.elim_some]
      omega
    · simp only [Members.put, Members.get?, h, if_false, sizeOfMembers]
      omega

theorem sizeOfMembers_erase_le (key : String) (members : List (String × Json)) :
    sizeOfMembers (Members.erase key members) ≤ sizeOfMembers members := by
  induction members with
  | nil => exact Nat.le_refl _
  | cons m rest ih =>
    obtain ⟨name, v⟩ := m
    unfold Members.erase at ih ⊢
    rw [List.filter_cons]
    split <;> simp only [sizeOfMembers] <;> omega

/-! ## One segment -/

/-- A child that stood there gives way to the new one. -/
theorem size_withChild_of_child? (h : node.child? key = some child) (new : Json) :
    (node.withChild key new).size + child.size = node.size + new.size := by
  cases node with
  | array items =>
    obtain ⟨i, hi, hget⟩ := Option.bind_eq_some_iff.1 h
    have hlt : i < items.length := (List.getElem?_eq_some_iff.1 hget).1
    have hpad : items.rightpad (i + 1) null = items := by
      rw [List.rightpad, Nat.sub_eq_zero_of_le hlt, List.replicate_zero, List.append_nil]
    have hset := sizeOfItems_set hget new
    simp only [withChild, hi, hpad, size]
    omega
  | object members =>
    have hget : Members.get? key members = some child := h
    have hput := sizeOfMembers_put key new members
    rw [hget, Option.elim_some] at hput
    simp only [withChild, size]
    omega
  | _ => cases h

/-- What is made under a segment is at most the gap of an array, the child itself counted as null before. -/
theorem size_withChild_le (h : node.refusal? key = none) (new : Json) :
    (node.withChild key new).size + ((node.child? key).getD null).size ≤ node.size + maxGap + new.size := by
  cases hchild : node.child? key with
  | some child =>
    have := size_withChild_of_child? hchild new
    rw [Option.getD_some]
    omega
  | none =>
    rw [Option.getD_none]
    cases node with
    | array items =>
      cases hi : arrayIndex? key with
      | none => simp [refusal?, hi] at h
      | some i =>
        -- the array ends before the place: it is filled up, and the last of the nulls gives way to the child
        have hend : items.length ≤ i := by simpa [child?, hi] using hchild
        have hgap : ¬ items.length + maxGap ≤ i := by simpa [refusal?, hi] using h
        have hlast : (items.rightpad (i + 1) null)[i]? = some null := by
          rw [List.rightpad, List.getElem?_append_right hend, List.getElem?_replicate, if_pos (by omega)]
        have hset := sizeOfItems_set hlast new
        rw [List.rightpad, sizeOfItems_append, sizeOfItems_replicate_null] at hset
        simp only [withChild, hi, size] at hset ⊢
        rw [List.rightpad]
        omega
    | object members =>
      have hget : Members.get? key members = none := hchild
      have hput := sizeOfMembers_put key new members
      rw [hget, Option.elim_none] at hput
      simp only [withChild, size, maxGap]
      omega
    | _ =>
      simp only [withChild, size, sizeOfMembers, maxGap]
      omega

theorem size_withoutChild_le (node : Json) (key : String) : (node.withoutChild key).size ≤ node.size := by
  cases node with
  | array items =>
    rw [withoutChild]
    split
    · next i _ =>
      cases hget : items[i]? with
      | none =>
        have hsame : items.set i null = items := List.set_eq_of_length_le (List.getElem?_eq_none_iff.1 hget)
        exact Nat.le_of_eq (by rw [hsame])
      | some old =>
        have hset := sizeOfItems_set hget null
        have := size_pos old
        simp only [size] at hset ⊢
        omega
    · exact Nat.le_refl _
  | object members => exact Nat.succ_le_succ (sizeOfMembers_erase_le key members)
  | _ => exact Nat.le_refl _

/-- A scalar gives way to one empty container. -/
theorem size_readied (node : Json) (rest : List String) : (node.readied rest).size = node.size := by
  cases rest with
  | nil => rfl
  | cons key rest =>
    rw [readied]
    split
    · rfl
    · next hscalar =>
      rw [size_of_not_container (Bool.eq_false_iff.2 hscalar)]
      unfold emptyFor
      split <;> rfl

/-! ## Along a path -/

/-- A write adds its value in place of what was there, and the gaps on its way. One that is refused adds no more. -/
theorem size_tree_write_le (node : Json) (path : List String) (value : Json) :
    (node.write path value).tree.size < node.size + maxGap * path.length + value.size := by
  induction path generalizing node with
  | nil =>
    have := size_pos node
    simp only [write, List.length_nil]
    omega
  | cons key rest ih =>
    have := size_pos value
    unfold write
    split
    · simp only [List.length_cons, Nat.mul_succ]
      omega
    · next hr =>
      have hbelow := ih (((node.child? key).getD null).readied rest)
      have hchild := size_withChild_le hr ((((node.child? key).getD null).readied rest).write rest value).tree
      rw [size_readied] at hbelow
      simp only [List.length_cons, Nat.mul_succ]
      omega

theorem size_update?_le {f : Json → Json} {path : List String} {new : Json}
    (hf : ∀ old, node.get? path = some old → (f old).size ≤ old.size + k) (h : node.update? f path = some new) :
    new.size ≤ node.size + k := by
  induction path generalizing node new with
  | nil =>
    cases h
    exact hf node rfl
  | cons key rest ih =>
    obtain ⟨child, hchild, h⟩ := Option.bind_eq_some_iff.1 h
    obtain ⟨changed, hchanged, rfl⟩ := Option.map_eq_some_iff.1 h
    have hbelow := ih (fun old hold => hf old (by rw [get?, hchild]; exact hold)) hchanged
    have := size_withChild_of_child? hchild changed
    omega

theorem size_erase?_le : ∀ {path : List String} {node new : Json}, node.erase? path = some new → new.size ≤ node.size
  | [], _, _, h => by cases h
  | [key], node, _, h => by
    obtain ⟨-, -, rfl⟩ := Option.map_eq_some_iff.1 h
    exact size_withoutChild_le node key
  | key :: next :: rest, _, _, h => by
    obtain ⟨child, hchild, h⟩ := Option.bind_eq_some_iff.1 h
    obtain ⟨changed, hchanged, rfl⟩ := Option.map_eq_some_iff.1 h
    have hbelow := size_erase?_le hchanged
    have := size_withChild_of_child? hchild changed
    omega

/-! ## Collections -/

mutual

theorem size_mergedWith_le : ∀ (incoming : Json) (earlier? : Option Json),
    (mergedWith earlier? incoming).size ≤ earlier?.elim 0 size + incoming.size
  | .object incoming, earlier? => by
    rw [mergedWith.eq_def]
    dsimp only
    split
    · next target =>
      have := sizeOfMembers_mergeMembers_le incoming target
      simp only [size, Option.elim_some]
      omega
    · exact Nat.le_add_left _ _
  | .null, _ => Nat.le_add_left _ _
  | .bool _, _ => Nat.le_add_left _ _
  | .number _, _ => Nat.le_add_left _ _
  | .string _, _ => Nat.le_add_left _ _
  | .array _, _ => Nat.le_add_left _ _
termination_by structural v => v

/-- A merge adds no more than comes in. -/
theorem sizeOfMembers_mergeMembers_le : ∀ (incoming target : List (String × Json)),
    sizeOfMembers (mergeMembers target incoming) ≤ sizeOfMembers target + sizeOfMembers incoming
  | [], _ => Nat.le_refl _
  | (key, v) :: rest, target => by
    have hv := size_mergedWith_le v (Members.get? key target)
    have hput := sizeOfMembers_put key (mergedWith (Members.get? key target) v) target
    have hrest := sizeOfMembers_mergeMembers_le rest (Members.put key (mergedWith (Members.get? key target) v) target)
    rw [mergeMembers, sizeOfMembers]
    omega
termination_by structural ms => ms

end

theorem size_onList_le {f : List Json → List Json} (hf : ∀ items, sizeOfItems (f items) ≤ sizeOfItems items + k)
    (node : Json) : (node.onList f).size ≤ node.size + k := by
  unfold onList
  split
  · next items label =>
    have := hf items
    simp only [size, sizeOfItems]
    omega
  · next items _ =>
    have := hf items
    simp only [size]
    omega
  · exact Nat.le_add_right _ _

theorem size_flattened_le (operand : Operand) : sizeOfItems operand.flattened ≤ operand.toJson.size := by
  unfold Operand.flattened
  split
  · exact Nat.le_succ _
  · exact Nat.le_refl _

theorem size_extended_le (node : Json) (operand : Operand) :
    (node.extended operand).size ≤ node.size + operand.toJson.size := by
  have hlist : (node.onList (· ++ operand.flattened)).size ≤ node.size + operand.toJson.size := by
    refine size_onList_le (fun items => ?_) node
    have := size_flattened_le operand
    rw [sizeOfItems_append]
    omega
  cases node with
  | object members =>
    unfold extended
    dsimp only
    split
    · next incoming =>
      have := sizeOfMembers_mergeMembers_le incoming members
      simp only [size, Operand.toJson]
      omega
    · exact Nat.le_add_right _ _
  | _ => exact hlist

theorem size_withoutEntry_le (node : Json) (operand : Operand) : (node.withoutEntry operand).size ≤ node.size := by
  have hlist : (node.onList (withoutItem operand)).size ≤ node.size := by
    refine size_onList_le (k := 0) (fun items => sizeOfItems_le_of_sublist ?_) node
    unfold withoutItem
    split
    · exact List.eraseIdx_sublist _ _
    · exact List.eraseP_sublist
  cases node with
  | object members => exact Nat.succ_le_succ (sizeOfMembers_erase_le operand.keyText members)
  | _ => exact hlist

theorem size_withEntry?_le {entryKey entry : Operand} {new : Json} (h : withEntry? entryKey entry node = some new) :
    new.size ≤ node.size + entry.toJson.size := by
  cases node with
  | array items =>
    obtain ⟨place, -, rfl⟩ := Option.map_eq_some_iff.1 h
    rw [size, size, sizeOfItems_insertIdx (place.spliceIndex_le items.length)]
    omega
  | object members =>
    cases h
    have := sizeOfMembers_put entryKey.keyText entry.toJson members
    simp only [size]
    omega
  | _ => cases h

end StateScript.Json
