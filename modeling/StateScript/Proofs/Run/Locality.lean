/-
Locality of runs. A run leaves every value where it was that no command's path leads near: if a path
resolves to a value before the run, and the path of every command that has one diverges from it, then
it resolves to this value after the run, whatever the commands are and whether they are applied, do
nothing or fail.
-/
import StateScript.Proofs.Run.Step
import StateScript.Proofs.Tree.Frame

namespace StateScript

namespace Command

/-- A move along one path leaves what a diverging path leads to. -/
theorem Move.get?_of_diverges {path : Path} {root w : Json} {effect : Effect} {q : List String}
    (h : Move path root effect) (hd : Diverges path.segments q) (hw : root.get? q = some w) :
    effect.tree.get? q = some w := by
  cases h with
  | idle => exact hw
  | lacking _ _ _ => exact hw
  | overflow => exact hw
  | write value =>
    rw [Path.write, Effect.tree_ofWritten]
    exact Json.get?_write_of_diverges value hd hw
  | erase =>
    rw [Path.erase]
    cases he : root.erase? path.segments with
    | none => exact hw
    | some new => exact Json.get?_erase?_of_diverges hd hw he
  | update f =>
    rw [Path.update]
    cases hu : root.update? f path.segments with
    | none => exact hw
    | some new => exact Json.get?_update?_of_diverges f hd hw hu

/-- One command leaves what a path leads to that its own path diverges from. -/
theorem get?_onState_of_diverges {rootKey : String} {command : Command} {state w : Json} {q : List String}
    (hd : ∀ path, command.path? = some path → Diverges path.segments q)
    (hw : state.get? (rootKey :: q) = some w) :
    (command.onState rootKey state).tree.get? (rootKey :: q) = some w := by
  rcases command.onState_cases rootKey state with ⟨error, h⟩ | ⟨path, members, hpath, rfl, h⟩
  · rw [h]; exact hw
  · obtain ⟨root, hroot, hq⟩ := Option.bind_eq_some_iff.1 hw
    have hmove := command.move_onRoot path (rootTree rootKey members)
    rw [rootTree_of_get? hroot] at hmove h
    rw [h, Json.get?, Json.child?, Members.get?_put_self, Option.bind_some]
    exact hmove.get?_of_diverges (hd path hpath) hq

end Command

/-- A path that resolves to a value under the root key resolves to the same value after a run in which
every command's path diverges from it. -/
theorem Run.get?_ofCommands_of_diverges (rootKey : String) (commands : List Command) (state w : Json) (q : List String)
    (hw : state.get? (rootKey :: q) = some w)
    (hd : ∀ command ∈ commands, ∀ path, command.path? = some path → Diverges path.segments q) :
    (ofCommands rootKey commands state).state.get? (rootKey :: q) = some w :=
  state_induction (P := fun state => state.get? (rootKey :: q) = some w)
    (fun command hc _ h => command.get?_onState_of_diverges (hd command hc) h) hw

/-- Under `list[1]` stays what is there, whatever a write behind `list[00]`, a removal elsewhere and a
write refused in the same list do. -/
theorem Run.get?_ofCommands_beside_list_item :
    let commands : List Command :=
      [⟨.set, ["'list[00].x'", "7"]⟩, ⟨.remove, ["n"]⟩, ⟨.set, ["list[2000]", "1"]⟩, ⟨.add, ["..", "1"]⟩]
    let state : Json := .object [("s", .object [("list", .array [.null, .string "kept"]), ("n", .bool true)])]
    state.get? ["s", "list", "1"] = some (.string "kept") ∧
      (∀ command ∈ commands, ∀ path, command.path? = some path → Diverges path.segments ["list", "1"]) ∧
      (ofCommands "s" commands state).state.get? ["s", "list", "1"] = some (.string "kept") := by
  intro commands state
  have hw : state.get? ["s", "list", "1"] = some (.string "kept") := rfl
  have hd : ∀ command ∈ commands, ∀ path, command.path? = some path → Diverges path.segments ["list", "1"] := by
    decide +kernel
  exact ⟨hw, hd, get?_ofCommands_of_diverges "s" commands state (.string "kept") ["list", "1"] hw hd⟩

end StateScript
