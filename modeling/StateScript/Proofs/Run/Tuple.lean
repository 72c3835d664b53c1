/-
Tuples under commands on their lists. A command that adds one operand to a collection, or takes an entry out
of it, works on the list of a tuple and leaves the label; so a tuple stays a tuple with its label through
every run of such commands and of commands whose paths diverge from it.

A command that inserts before a numbered place does not look for a tuple: it goes into the array of two, and
leaves an array of three, which is no tuple any more.
-/
import StateScript.Proofs.Run.Locality
import StateScript.Proofs.Run.Revision
import Mathlib.Data.List.Basic

namespace StateScript

/-- A list with its label. -/
def Json.tuple (items : List Json) (label : String) : Json := .array [.array items, .string label]

namespace Command

/-- The command changes a list without counting a place for what comes in: it adds one operand, or takes an
entry out. -/
inductive AddsOrTakes (command : Command) : Prop
  | adds {operand : Operand} (hverb : command.verb = .assign ∨ command.verb = .insert)
    (h : command.operands = [operand])
  | takes {operand : Operand} {rest : List Operand} (hverb : command.verb = .remove)
    (h : command.operands = operand :: rest)

/-- The command inserts an operand before the place that a number counts to. -/
inductive InsertsAtPlace (command : Command) : Prop
  | mk {key value : Operand} {rest : List Operand} {n : Number}
    (hverb : command.verb = .assign ∨ command.verb = .insert) (h : command.operands = key :: value :: rest)
    (hn : key.number? = some n)

/-! ## One command -/

variable {command : Command} {path : Path} {root : Json} {items : List Json} {label : String}

/-- The list of the tuple is changed, and the label is left. -/
theorem AddsOrTakes.get?_onRoot (hcommand : command.AddsOrTakes)
    (h : root.get? path.segments = some (.tuple items label)) :
    ∃ new, (command.onRoot path root).tree.get? path.segments = some (.tuple new label) := by
  cases hcommand with
  | @adds operand hverb hoperands =>
    refine ⟨items ++ operand.flattened, ?_⟩
    have hassign : path.assign operand root = path.update (Json.extended operand) root := by
      rw [Path.assign, h]
      rfl
    rw [(onRoot_one_operand path root hverb hoperands).1, hassign]
    exact Path.get?_update_of_get? h _
  | @takes operand rest hverb hoperands =>
    refine ⟨Json.withoutItem operand items, ?_⟩
    rw [(onRoot_remove_operand path root hverb hoperands).1]
    exact Path.get?_update_of_get? h _

/-- The tuple becomes an array of three. -/
theorem InsertsAtPlace.get?_onRoot (hcommand : command.InsertsAtPlace)
    (h : root.get? path.segments = some (.tuple items label)) :
    ∃ a b c, (command.onRoot path root).tree.get? path.segments = some (.array [a, b, c]) := by
  obtain @⟨key, value, rest, n, hverb, hoperands, hn⟩ := hcommand
  have hlength : ([.array items, .string label].insertIdx (n.spliceIndex 2) value.toJson).length = 3 :=
    List.length_insertIdx_of_le_length (n.spliceIndex_le 2) _
  obtain ⟨a, b, c, hthree⟩ := List.length_eq_three.1 hlength
  have hentry : Json.withEntry? key value (.tuple items label) = some (.array [a, b, c]) := by
    rw [← hthree, Json.tuple, Json.withEntry?, hn]
    rfl
  have hassign : path.assignEntry key value root = path.update (fun _ => .array [a, b, c]) root := by
    rw [Path.assignEntry, h, Option.bind_some, hentry]
  refine ⟨a, b, c, ?_⟩
  rw [(onRoot_two_operands path root hverb hoperands).1, hassign]
  exact Path.get?_update_of_get? h _

end Command

/-! ## Runs -/

namespace Run

variable {rootKey : String} {p : List String} {items : List Json} {label : String}

/-- A tuple stays a tuple with its label under a command on its list, and under one whose path diverges. -/
theorem exists_tuple_onState {command : Command} {state : Json}
    (hcommand : (∀ path, command.path? = some path → Diverges path.segments p) ∨ command.IsAt p ∧ command.AddsOrTakes)
    (h : state.get? (rootKey :: p) = some (.tuple items label)) :
    ∃ new, (command.onState rootKey state).tree.get? (rootKey :: p) = some (.tuple new label) := by
  rcases hcommand with hdiverges | ⟨⟨path, hpath, rfl⟩, hcommand⟩
  · exact ⟨items, Command.get?_onState_of_diverges hdiverges h⟩
  · rcases command.onState_cases rootKey state with ⟨error, hstate⟩ | ⟨-, members, -, rfl, -⟩
    · rw [hstate]
      exact ⟨items, h⟩
    · obtain ⟨root, hroot, h⟩ := Option.bind_eq_some_iff.1 h
      rw [Command.get?_onState hpath hroot]
      exact hcommand.get?_onRoot h

/-- Through commands that add one operand to its list or take an entry out of it, and commands whose paths
diverge from it, a tuple stays a tuple with its label; and an insertion before a numbered place leaves an
array of three. -/
theorem label_kept_unless_inserted (rootKey : String) (p : List String) (members : List (String × Json))
    (items : List Json) (label : String)
    (htuple : (Json.object members).get? (rootKey :: p) = some (.tuple items label)) :
    (∀ commands : List Command,
      (∀ command ∈ commands, (∀ path, command.path? = some path → Diverges path.segments p) ∨
        command.IsAt p ∧ command.AddsOrTakes) →
      ∃ new, (ofCommands rootKey commands (.object members)).state.get? (rootKey :: p) =
        some (.tuple new label)) ∧
    ∀ command : Command, command.IsAt p → command.InsertsAtPlace →
      ∃ a b c, (command.onState rootKey (.object members)).tree.get? (rootKey :: p) = some (.array [a, b, c]) := by
  constructor
  · intro commands hcommands
    refine state_induction (P := fun state => ∃ new, state.get? (rootKey :: p) = some (.tuple new label)) ?_
      ⟨items, htuple⟩
    rintro command hcommand state ⟨new, h⟩
    exact exists_tuple_onState (hcommands command hcommand) h
  · rintro command ⟨path, hpath, rfl⟩ hcommand
    obtain ⟨root, hroot, h⟩ := Option.bind_eq_some_iff.1 htuple
    rw [Command.get?_onState hpath hroot]
    exact hcommand.get?_onRoot h

/-- Before the first place of the tuple's own array an item pushes the list to the second. -/
theorem label_lost_behind_inserted :
    ¬ ∀ (rootKey : String) (p : List String) (members : List (String × Json)) (items : List Json) (label : String)
      (commands : List Command), (Json.object members).get? (rootKey :: p) = some (.tuple items label) →
      (∀ command ∈ commands, (∀ path, command.path? = some path → Diverges path.segments p) ∨
        command.IsAt p ∧ (command.AddsOrTakes ∨ command.InsertsAtPlace)) →
      ∃ new, (ofCommands rootKey commands (.object members)).state.get? (rootKey :: p) =
        some (.tuple new label) := by
  intro h
  have hpath : (⟨.insert, ["'a'", "0", "'y'"]⟩ : Command).path? = some ⟨"a", ["a"], by decide⟩ := by decide +kernel
  have hoperands : (⟨.insert, ["'a'", "0", "'y'"]⟩ : Command).operands =
      [.value (.number (.int 0 (by decide))), .value (.string "y")] := by decide +kernel
  obtain ⟨new, hnew⟩ := h "statData" ["a"] [("statData", .object [("a", .tuple [.string "x"] "desc")])]
    [.string "x"] "desc" [⟨.insert, ["'a'", "0", "'y'"]⟩] rfl (by
      simp only [List.forall_mem_singleton]
      exact .inr ⟨⟨_, hpath, rfl⟩, .inr (.mk (.inr rfl) hoperands rfl)⟩)
  have htuple : ((ofCommands "statData" [⟨.insert, ["'a'", "0", "'y'"]⟩]
      (.object [("statData", .object [("a", .tuple [.string "x"] "desc")])])).state.get? ["statData", "a"]).map
        Json.isTuple = some true := by
    rw [hnew]
    rfl
  exact absurd htuple (by decide +kernel)

/-- Both items of an array come into the list and one goes out of it, beside a write to another path. -/
theorem label_kept_beside_write :
    let commands : List Command :=
      [⟨.assign, ["bag", "['a', 'b']"]⟩, ⟨.set, ["'n.bag'", "1"]⟩, ⟨.remove, ["bag", "-2"]⟩]
    let members : List (String × Json) := [("s", .object [("n", .null), ("bag", .tuple [.null] "things")])]
    (Json.object members).get? ["s", "bag"] = some (.tuple [.null] "things") ∧
      (∀ command ∈ commands, (∀ path, command.path? = some path → Diverges path.segments ["bag"]) ∨
        command.IsAt ["bag"] ∧ command.AddsOrTakes) ∧
      (∃ new, (ofCommands "s" commands (.object members)).state.get? ["s", "bag"] =
        some (.tuple new "things")) ∧
      ∃ a b c, ((⟨.assign, ["bag", "2", "0"]⟩ : Command).onState "s" (.object members)).tree.get? ["s", "bag"] =
        some (.array [a, b, c]) := by
  intro commands members
  have htuple : (Json.object members).get? ["s", "bag"] = some (.tuple [.null] "things") := rfl
  have hassign : (⟨.assign, ["bag", "['a', 'b']"]⟩ : Command).path? = some ⟨"bag", ["bag"], by decide⟩ := by
    decide +kernel
  have hboth : (⟨.assign, ["bag", "['a', 'b']"]⟩ : Command).operands =
      [.value (.array [.string "a", .string "b"])] := by decide +kernel
  have hset : ∀ path, (⟨.set, ["'n.bag'", "1"]⟩ : Command).path? = some path → Diverges path.segments ["bag"] := by
    decide +kernel
  have hremove : (⟨.remove, ["bag", "-2"]⟩ : Command).path? = some ⟨"bag", ["bag"], by decide⟩ := by decide +kernel
  have hplace : (⟨.remove, ["bag", "-2"]⟩ : Command).operands = [.value (.number (.int (-2) (by decide)))] := by
    decide +kernel
  have hinsert : (⟨.assign, ["bag", "2", "0"]⟩ : Command).path? = some ⟨"bag", ["bag"], by decide⟩ := by decide +kernel
  have htwo : (⟨.assign, ["bag", "2", "0"]⟩ : Command).operands =
      [.value (.number (.int 2 (by decide))), .value (.number (.int 0 (by decide)))] := by decide +kernel
  have hcommands : ∀ command ∈ commands, (∀ path, command.path? = some path → Diverges path.segments ["bag"]) ∨
      command.IsAt ["bag"] ∧ command.AddsOrTakes := by
    simp only [commands, List.forall_mem_cons]
    exact ⟨.inr ⟨⟨_, hassign, rfl⟩, .adds (.inl rfl) hboth⟩, .inl hset,
      .inr ⟨⟨_, hremove, rfl⟩, .takes rfl hplace⟩, List.forall_mem_nil _⟩
  obtain ⟨hkept, hlost⟩ := label_kept_unless_inserted "s" ["bag"] members [.null] "things" htuple
  exact ⟨htuple, hcommands, hkept commands hcommands, hlost _ ⟨_, hinsert, rfl⟩ (.mk (.inl rfl) htwo rfl)⟩

end Run

end StateScript
