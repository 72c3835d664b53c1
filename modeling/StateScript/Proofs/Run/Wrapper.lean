/-
The rest of the wrapper. A run neither changes nor reads what an object holds beside the root key: the other
members keep their values and their order, the root key keeps its place or comes last, and a run on another
object with the same under the root key reports the same and leaves the same there.
-/
import StateScript.Proofs.Run.Step

namespace StateScript

/-- On objects with the same under the root key, a command meets the same fate, and leaves objects with the
same under the root key. -/
theorem Command.onState_of_get?_eq (rootKey : String) (command : Command) {members others : List (String × Json)}
    (h : Members.get? rootKey others = Members.get? rootKey members) :
    (command.onState rootKey (.object others)).status = (command.onState rootKey (.object members)).status ∧
      ∃ left right, (command.onState rootKey (.object others)).tree = .object left ∧
        (command.onState rootKey (.object members)).tree = .object right ∧
        Members.get? rootKey left = Members.get? rootKey right := by
  rcases hpath : command.path? with _ | path
  · obtain ⟨error, hfailed⟩ := onState_of_path?_eq_none hpath rootKey
    rw [hfailed, hfailed]
    exact ⟨rfl, others, members, rfl, rfl, h⟩
  · have hroot : rootTree rootKey others = rootTree rootKey members := by rw [rootTree, rootTree, h]
    rw [onState_object hpath, onState_object hpath, hroot]
    refine ⟨rfl, _, _, rfl, rfl, ?_⟩
    rw [Members.get?_put_self, Members.get?_put_self]

namespace Run

variable {rootKey : String}

/-! ## One run -/

/-- The members beside the root key are left as they are. The root key keeps its place; where there was none
it comes last, as soon as a command has a path. -/
theorem exists_members_ofCommands : ∀ (commands : List Command) (members : List (String × Json)),
    ∃ after, (ofCommands rootKey commands (.object members)).state = .object after ∧
      Members.erase rootKey after = Members.erase rootKey members ∧
      Members.keys after =
        if rootKey ∈ Members.keys members ∨ ∀ command ∈ commands, command.path? = none then Members.keys members
        else Members.keys members ++ [rootKey]
  | [], members => ⟨members, rfl, rfl, (if_pos (.inr (List.forall_mem_nil _))).symm⟩
  | command :: rest, members => by
    rcases command.onState_object_cases rootKey members with ⟨hpath, hstate⟩ | ⟨path, hpath, hstate⟩
    · obtain ⟨after, hafter, herase, hkeys⟩ := exists_members_ofCommands rest members
      refine ⟨after, by rw [ofCommands, hstate, hafter], herase, ?_⟩
      simp only [hkeys, List.forall_mem_cons, hpath, true_and]
    · -- now the root key is there, and the rest of the run leaves the keys as they are
      have hmade := Members.keys_put rootKey (command.onRoot path (rootTree rootKey members)).tree members
      generalize (command.onRoot path (rootTree rootKey members)).tree = tree at hstate hmade
      obtain ⟨after, hafter, herase, hkeys⟩ := exists_members_ofCommands rest (Members.put rootKey tree members)
      have hmem : rootKey ∈ Members.keys (Members.put rootKey tree members) := by
        rw [← Members.get?_isSome_iff, Members.get?_put_self]
        rfl
      refine ⟨after, by rw [ofCommands, hstate, hafter], herase.trans (Members.erase_put ..), ?_⟩
      rw [hkeys, if_pos (.inl hmem), hmade]
      simp only [List.forall_mem_cons, hpath, reduceCtorEq, false_and, or_false]

/-! ## Two runs -/

/-- On objects with the same under the root key, a run reports the same, and leaves the same there. -/
theorem ofCommands_of_get?_eq : ∀ (commands : List Command) {members others : List (String × Json)},
    Members.get? rootKey others = Members.get? rootKey members →
    (ofCommands rootKey commands (.object others)).reports = (ofCommands rootKey commands (.object members)).reports ∧
      (ofCommands rootKey commands (.object others)).state.get? [rootKey] =
        (ofCommands rootKey commands (.object members)).state.get? [rootKey]
  | [], _, _, h => ⟨rfl, congrArg (Option.bind · _) h⟩
  | command :: rest, members, others, h => by
    obtain ⟨hstatus, left, right, hleft, hright, h⟩ := command.onState_of_get?_eq rootKey h
    obtain ⟨hreports, hroot⟩ := ofCommands_of_get?_eq rest h
    simp only [ofCommands, hstatus, hleft, hright, hreports, true_and]
    exact hroot

/-- A run on an object leaves the members beside the root key as they were, and the keys in their order, a new
root key last. On another object with the same under the root key it reports the same, changes the state or
not as on the first, and leaves the same under the root key. -/
theorem ofText_beside_rootKey (rootKey : String) (script : List Char) (members : List (String × Json)) :
    (∃ after, (ofText rootKey script (.object members)).state = .object after ∧
      Members.erase rootKey after = Members.erase rootKey members ∧
      Members.keys after =
        if rootKey ∈ Members.keys members ∨ ∀ command ∈ (Extraction.ofText script).commands, command.path? = none
        then Members.keys members
        else Members.keys members ++ [rootKey]) ∧
    ∀ others, Members.get? rootKey others = Members.get? rootKey members →
      let run := ofText rootKey script (.object members)
      let other := ofText rootKey script (.object others)
      other.reports = run.reports ∧ other.outcome.state?.isSome = run.outcome.state?.isSome ∧
        other.state.get? [rootKey] = run.state.get? [rootKey] := by
  refine ⟨exists_members_ofCommands _ members, ?_⟩
  intro others h run other
  obtain ⟨hreports, hroot⟩ := ofCommands_of_get?_eq (Extraction.ofText script).commands h
  have hreports : other.reports = run.reports := hreports
  refine ⟨hreports, ?_, hroot⟩
  rw [state?_outcome, state?_outcome, hreports]
  split <;> rfl

/-- Neither object has the root key: a list is made under it, and the command that asks for another member of the
object finds nothing. -/
theorem ofText_beside_rootKey_absent :
    let script := "_.set('list[1]', 5); _.add('log', 1); _.set('list.x', 0);".toList
    let members : List (String × Json) := [("log", .number (.int 3 (by decide))), ("list", .string "kept")]
    let others : List (String × Json) := [("list", .null)]
    Members.get? "s" others = Members.get? "s" members ∧
      (∃ after, (ofText "s" script (.object members)).state = .object after ∧
        Members.erase "s" after = members ∧ Members.keys after = ["log", "list", "s"]) ∧
      (ofText "s" script (.object others)).reports = (ofText "s" script (.object members)).reports ∧
      (ofText "s" script (.object others)).state.get? ["s"] =
        (ofText "s" script (.object members)).state.get? ["s"] := by
  intro script members others
  have hagree : Members.get? "s" others = Members.get? "s" members := rfl
  obtain ⟨⟨after, hafter, herase, hkeys⟩, hother⟩ := ofText_beside_rootKey "s" script members
  obtain ⟨hreports, -, hroot⟩ := hother others hagree
  have hpaths : ¬ ("s" ∈ Members.keys members ∨
      ∀ command ∈ (Extraction.ofText script).commands, command.path? = none) := by decide +kernel
  rw [if_neg hpaths] at hkeys
  exact ⟨hagree, ⟨after, hafter, herase, hkeys⟩, hreports, hroot⟩

end Run

end StateScript
