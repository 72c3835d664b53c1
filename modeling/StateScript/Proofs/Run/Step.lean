/-
What a command can do, said once. On the tree that its path is resolved in, a command does nothing and
is not applied, or it writes along its path, takes away at its path, or changes in place what is
there. On a state it leaves all but this tree alone, and one whose path is no path, or which meets a
state that is no object, leaves the state. What every command of a list keeps, a run of them keeps.
-/
import StateScript.Execution

namespace StateScript

/-! ## On the tree under the root key -/

@[simp] theorem Effect.tree_ofWritten (path : Path) (written : Json.Written) :
    (ofWritten path written).tree = written.tree := by
  unfold ofWritten
  split <;> rfl

namespace Command

/-- The path of a command, if its first argument is one. -/
def path? (command : Command) : Option Path :=
  command.arguments.head?.bind fun first => Path.ofText? (String.ofList (Text.unquote first.toList))

/-- The path of the command has these segments. -/
def IsAt (command : Command) (p : List String) : Prop := ∃ path, command.path? = some path ∧ path.segments = p

/-- The typed arguments behind the path. -/
def operands (command : Command) : List Operand :=
  (command.arguments.drop 1).map fun raw => Operand.ofText raw.toList

/-- What a command does to the tree that its path is resolved in: it leaves it for one of three reasons,
or acts along its path in one of three ways. -/
inductive Move (path : Path) (root : Json) : Effect → Prop
  | idle : Move path root ⟨root, .noOp⟩
  | lacking (verb : Verb) (expected found : Nat) :
    Move path root ⟨root, .failed (.missingArguments verb expected found)⟩
  | overflow : Move path root ⟨root, .failed (.numericOverflow path.text)⟩
  | write (value : Json) : Move path root (path.write value root)
  | erase : Move path root (path.erase root)
  | update (f : Json → Json) : Move path root (path.update f root)

theorem move_set (path : Path) (operand : Operand) (root : Json) : Move path root (path.set operand root) := by
  cases operand with
  | undefined => exact .erase
  | value json => exact .write json

theorem move_add (path : Path) (operand : Operand) (root : Json) : Move path root (path.add operand root) := by
  unfold Path.add
  split
  · split
    · exact .write _
    · exact .overflow
  · exact .idle

theorem move_assign (path : Path) (operand : Operand) (root : Json) :
    Move path root (path.assign operand root) := by
  unfold Path.assign
  split
  · exact .update _
  · exact .write _

theorem move_assignEntry (path : Path) (key value : Operand) (root : Json) :
    Move path root (path.assignEntry key value root) := by
  unfold Path.assignEntry
  split
  · exact .update _
  · exact .write _

theorem move_onRoot (command : Command) (path : Path) (root : Json) :
    Move path root (command.onRoot path root) := by
  unfold onRoot
  split
  · exact move_set path _ root
  · exact move_add path _ root
  · exact .erase
  · exact .update _
  · exact move_assign path _ root
  · exact move_assign path _ root
  · exact move_assignEntry path _ _ root
  · exact move_assignEntry path _ _ root
  · exact .lacking _ _ _

end Command

/-! ## On a state -/

/-- The tree under the root key of a state's members: an empty object if there is none. -/
def rootTree (rootKey : String) (members : List (String × Json)) : Json :=
  (Members.get? rootKey members).getD (.object [])

theorem rootTree_of_get? {rootKey : String} {members : List (String × Json)} {root : Json}
    (h : Members.get? rootKey members = some root) : rootTree rootKey members = root := by
  rw [rootTree, h, Option.getD_some]

theorem rootTree_put (rootKey : String) (root : Json) (members : List (String × Json)) :
    rootTree rootKey (Members.put rootKey root members) = root := by
  rw [rootTree, Members.get?_put_self, Option.getD_some]

namespace Command

theorem onState_object {command : Command} {path : Path} (h : command.path? = some path) (rootKey : String)
    (members : List (String × Json)) :
    command.onState rootKey (.object members) =
      ⟨.object (Members.put rootKey (command.onRoot path (rootTree rootKey members)).tree members),
        (command.onRoot path (rootTree rootKey members)).status⟩ := by
  obtain ⟨verb, _ | ⟨first, more⟩⟩ := command
  · cases h
  · have hp : Path.ofText? (String.ofList (Text.unquote first.toList)) = some path := h
    simp only [onState, hp, rootTree]

theorem onState_of_path?_eq_none {command : Command} (h : command.path? = none) (rootKey : String) :
    ∃ error, ∀ state, command.onState rootKey state = ⟨state, .failed error⟩ := by
  obtain ⟨verb, _ | ⟨first, more⟩⟩ := command
  · exact ⟨_, fun _ => rfl⟩
  · have hp : Path.ofText? (String.ofList (Text.unquote first.toList)) = none := h
    exact ⟨.invalidPath (String.ofList (Text.unquote first.toList)), fun _ => by simp only [onState, hp]⟩

theorem onState_of_path? {command : Command} {path : Path} (h : command.path? = some path) (rootKey : String)
    {state : Json} (hstate : ∀ members, state ≠ .object members) :
    command.onState rootKey state = ⟨state, .failed .rootNotObject⟩ := by
  obtain ⟨verb, _ | ⟨first, more⟩⟩ := command
  · cases h
  · have hp : Path.ofText? (String.ofList (Text.unquote first.toList)) = some path := h
    cases state with
    | object members => exact absurd rfl (hstate members)
    | _ => simp only [onState, hp]

/-- A command leaves the state and fails, or it acts on the tree under the root key. -/
theorem onState_cases (rootKey : String) (command : Command) (state : Json) :
    (∃ error, command.onState rootKey state = ⟨state, .failed error⟩) ∨
    (∃ path members, command.path? = some path ∧ state = .object members ∧
      command.onState rootKey state =
        ⟨.object (Members.put rootKey (command.onRoot path (rootTree rootKey members)).tree members),
          (command.onRoot path (rootTree rootKey members)).status⟩) := by
  rcases hpath : command.path? with _ | path
  · obtain ⟨error, h⟩ := onState_of_path?_eq_none hpath rootKey
    exact .inl ⟨error, h state⟩
  · by_cases hstate : ∃ members, state = .object members
    · obtain ⟨members, rfl⟩ := hstate
      exact .inr ⟨path, members, rfl, rfl, onState_object hpath rootKey members⟩
    · exact .inl ⟨_, onState_of_path? hpath rootKey fun members h => hstate ⟨members, h⟩⟩

/-- On an object a command without a path leaves the object, and any other puts a tree under the root key. -/
theorem onState_object_cases (rootKey : String) (command : Command) (members : List (String × Json)) :
    (command.path? = none ∧ (command.onState rootKey (.object members)).tree = .object members) ∨
    ∃ path, command.path? = some path ∧ (command.onState rootKey (.object members)).tree =
      .object (Members.put rootKey (command.onRoot path (rootTree rootKey members)).tree members) := by
  rcases hpath : command.path? with _ | path
  · obtain ⟨error, h⟩ := onState_of_path?_eq_none hpath rootKey
    exact .inl ⟨rfl, by rw [h]⟩
  · exact .inr ⟨path, rfl, by rw [onState_object hpath]⟩

/-- What a way behind the root key leads to after a command. -/
theorem get?_onState {command : Command} {path : Path} (h : command.path? = some path) {rootKey : String}
    {members : List (String × Json)} {root : Json} (hroot : Members.get? rootKey members = some root)
    (q : List String) :
    (command.onState rootKey (.object members)).tree.get? (rootKey :: q) =
      (command.onRoot path root).tree.get? q := by
  rw [onState_object h, rootTree_of_get? hroot, Json.get?, Json.child?, Members.get?_put_self, Option.bind_some]

end Command

/-! ## Runs -/

namespace Run

theorem state_ofCommands_append (rootKey : String) (front back : List Command) (state : Json) :
    (ofCommands rootKey (front ++ back) state).state =
      (ofCommands rootKey back (ofCommands rootKey front state).state).state := by
  induction front generalizing state with
  | nil => rfl
  | cons command front ih => exact ih _

theorem reports_ofCommands_append (rootKey : String) (front back : List Command) (state : Json) :
    (ofCommands rootKey (front ++ back) state).reports =
      (ofCommands rootKey front state).reports ++
        (ofCommands rootKey back (ofCommands rootKey front state).state).reports := by
  induction front generalizing state with
  | nil => rfl
  | cons command front ih => exact congrArg (_ :: ·) (ih _)

theorem state?_outcome (run : Run) :
    run.outcome.state? = if run.reports.any (·.status = .applied) then some run.state else none := by
  rw [outcome]
  split <;> rfl

/-- What each command keeps, the run keeps. -/
theorem state_induction {rootKey : String} {P : Json → Prop} {commands : List Command}
    (hstep : ∀ command ∈ commands, ∀ state, P state → P (command.onState rootKey state).tree) {state : Json}
    (h : P state) : P (ofCommands rootKey commands state).state := by
  induction commands generalizing state with
  | nil => exact h
  | cons command rest ih =>
    exact ih (fun c hc => hstep c (List.mem_cons_of_mem _ hc)) (hstep command List.mem_cons_self state h)

end Run

end StateScript
