/-
How far a script can grow the state. A command adds at most the nodes of its value argument and, for each segment of
its path, what an array may be filled up with; whether it is applied, does nothing or fails makes no difference. So
a run adds at most the sum of this over its commands, and once an empty object under the root key.

The object under the root key is what a run cannot be charged for command by command, since any of them may be the
first that makes it. The bound is carried through the run for the state with its root key made.
-/
import StateScript.Proofs.Run.Isolation
import StateScript.Proofs.Tree.Size
import Mathlib.Algebra.Order.Ring.Nat

namespace StateScript

/-! ## Paths -/

namespace Path

variable {k : Nat} (path : Path) (operand key value : Operand) (root : Json)

theorem size_write_lt (json : Json) :
    (path.write json root).tree.size < root.size + Json.maxGap * path.segments.length + json.size := by
  unfold write
  rw [Effect.tree_ofWritten]
  exact Json.size_tree_write_le root path.segments json

theorem size_erase_le : (path.erase root).tree.size ≤ root.size := by
  unfold erase
  cases hnew : root.erase? path.segments with
  | none => exact Nat.le_refl _
  | some new => exact Json.size_erase?_le hnew

variable {root} in
theorem size_update_le {f : Json → Json}
    (hf : ∀ old, root.get? path.segments = some old → (f old).size ≤ old.size + k) :
    (path.update f root).tree.size ≤ root.size + k := by
  unfold update
  cases hnew : root.update? f path.segments with
  | none => exact Nat.le_add_right _ _
  | some new => exact Json.size_update?_le hf hnew

theorem size_set_le :
    (path.set operand root).tree.size ≤ root.size + Json.maxGap * path.segments.length + operand.toJson.size := by
  cases operand with
  | undefined =>
    have := path.size_erase_le root
    unfold set
    dsimp only
    omega
  | value json => exact Nat.le_of_lt (path.size_write_lt root json)

/-- The sum is one node, as the number was. -/
theorem size_add_le : (path.add operand root).tree.size ≤ root.size + Json.maxGap * path.segments.length := by
  unfold add
  split
  · next n delta _ _ =>
    split
    · next sum _ => exact Nat.le_of_lt_succ (path.size_write_lt root (.number sum))
    · exact Nat.le_add_right _ _
  · exact Nat.le_add_right _ _

theorem size_assign_le :
    (path.assign operand root).tree.size ≤ root.size + Json.maxGap * path.segments.length + operand.toJson.size := by
  unfold assign
  split
  · have : (path.update (Json.extended operand) root).tree.size ≤ root.size + operand.toJson.size :=
      path.size_update_le fun old _ => old.size_extended_le operand
    omega
  · exact Nat.le_of_lt (path.size_write_lt root operand.toJson)

theorem size_assignEntry_le :
    (path.assignEntry key value root).tree.size ≤
      root.size + Json.maxGap * path.segments.length + value.toJson.size := by
  unfold assignEntry
  split
  · next collection hcollection =>
    obtain ⟨old, hget, hentry⟩ := Option.bind_eq_some_iff.1 hcollection
    have hsize := Json.size_withEntry?_le hentry
    have : (path.update (fun _ => collection) root).tree.size ≤ root.size + value.toJson.size := by
      refine path.size_update_le fun other hother => ?_
      rw [hget] at hother
      cases hother
      exact hsize
    omega
  · have := path.size_write_lt root (.object [(key.keyText, value.toJson)])
    simp only [Json.size, Json.sizeOfMembers] at this
    omega

theorem size_removeEntry_le : (path.removeEntry operand root).tree.size ≤ root.size :=
  path.size_update_le (k := 0) fun old _ => old.size_withoutEntry_le operand

end Path

/-! ## Commands -/

namespace Command

/-- The nodes of the typed value argument. A removal has no value, and neither has a command that lacks it. -/
def valueSize (command : Command) : Nat :=
  match command.verb, command.operands with
  | .set, operand :: _ | .add, operand :: _ => operand.toJson.size
  | .assign, [operand] | .insert, [operand] => operand.toJson.size
  | .assign, _ :: value :: _ | .insert, _ :: value :: _ => value.toJson.size
  | _, _ => 0

/-- The most nodes that a command adds to a state that has the root key: nothing without a path. -/
def growth (command : Command) : Nat :=
  command.path?.elim 0 fun path => Json.maxGap * path.segments.length + command.valueSize + 1

theorem size_onRoot_le (command : Command) (path : Path) (root : Json) :
    (command.onRoot path root).tree.size ≤
      root.size + Json.maxGap * path.segments.length + command.valueSize := by
  have hkept : ∀ effect : Effect, effect.tree.size ≤ root.size →
      effect.tree.size ≤ root.size + Json.maxGap * path.segments.length + command.valueSize := by
    intro effect h
    omega
  unfold onRoot
  rw [← operands]
  split
  · next hverb hoperands =>
    rw [valueSize, hverb, hoperands]
    exact path.size_set_le _ root
  · next operand _ hverb hoperands => exact Nat.le_trans (path.size_add_le operand root) (Nat.le_add_right _ _)
  · exact hkept _ (path.size_erase_le root)
  · exact hkept _ (path.size_removeEntry_le _ root)
  · next hverb hoperands =>
    rw [valueSize, hverb, hoperands]
    exact path.size_assign_le _ root
  · next hverb hoperands =>
    rw [valueSize, hverb, hoperands]
    exact path.size_assign_le _ root
  · next hverb hoperands =>
    rw [valueSize, hverb, hoperands]
    exact path.size_assignEntry_le _ _ root
  · next hverb hoperands =>
    rw [valueSize, hverb, hoperands]
    exact path.size_assignEntry_le _ _ root
  · exact hkept _ (Nat.le_refl _)

/-- The tree under the root key counts in the state for what it is. -/
theorem size_put_rootKey (rootKey : String) (members : List (String × Json)) (root : Json) :
    (Json.object (Members.put rootKey root members)).size + (rootTree rootKey members).size =
      (withRootKey rootKey (.object members)).size + root.size := by
  have hnew := Json.sizeOfMembers_put rootKey root members
  have hold := Json.sizeOfMembers_put rootKey (rootTree rootKey members) members
  simp only [withRootKey, Json.size]
  omega

/-- One command adds at most its growth, the root key aside. -/
theorem size_onState_le (rootKey : String) (command : Command) (state : Json) :
    (withRootKey rootKey (command.onState rootKey state).tree).size ≤
      (withRootKey rootKey state).size + command.growth := by
  rcases command.onState_cases rootKey state with ⟨error, h⟩ | ⟨path, members, hpath, rfl, h⟩
  · rw [h]
    exact Nat.le_add_right _ _
  · have hroot := command.size_onRoot_le path (rootTree rootKey members)
    have hput := size_put_rootKey rootKey members (command.onRoot path (rootTree rootKey members)).tree
    rw [h, withRootKey_put, growth, hpath, Option.elim_some]
    omega

end Command

/-! ## Runs -/

/-- The root key is made at the price of one node. -/
theorem size_withRootKey (rootKey : String) (state : Json) :
    state.size ≤ (withRootKey rootKey state).size ∧ (withRootKey rootKey state).size ≤ state.size + 1 := by
  cases state with
  | object members =>
    have hput := Json.sizeOfMembers_put rootKey (rootTree rootKey members) members
    unfold rootTree at hput
    simp only [withRootKey, rootTree, Json.size]
    cases hget : Members.get? rootKey members with
    | none =>
      rw [hget, Option.elim_none, Option.getD_none, Json.size] at hput
      rw [Option.getD_none]
      simp only [Json.sizeOfMembers] at hput
      omega
    | some root =>
      rw [hget, Option.elim_some, Option.getD_some] at hput
      rw [Option.getD_some]
      omega
  | _ => exact ⟨Nat.le_refl _, Nat.le_succ _⟩

namespace Run

theorem size_withRootKey_ofCommands_le (rootKey : String) (commands : List Command) (state : Json) :
    (withRootKey rootKey (ofCommands rootKey commands state).state).size ≤
      (withRootKey rootKey state).size + (commands.map Command.growth).sum := by
  induction commands generalizing state with
  | nil => exact Nat.le_refl _
  | cons command rest ih =>
    have hfirst := command.size_onState_le rootKey state
    have hrest := ih (command.onState rootKey state).tree
    rw [ofCommands, List.map_cons, List.sum_cons]
    dsimp only
    omega

/-- A run leaves a state of at most the nodes that there were, one for the root key, and those that the commands
may add, whatever becomes of them. -/
theorem size_ofCommands_le (rootKey : String) (commands : List Command) (state : Json) :
    (ofCommands rootKey commands state).state.size ≤ state.size + 1 + (commands.map Command.growth).sum := by
  have hrun := size_withRootKey_ofCommands_le rootKey commands state
  have hbefore := (size_withRootKey rootKey state).2
  have hafter := (size_withRootKey rootKey (ofCommands rootKey commands state).state).1
  omega

end Run

end StateScript
