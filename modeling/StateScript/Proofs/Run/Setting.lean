/-
Runs of set commands. A set command with a path and a value makes an edit of the tree under the root key, and
a list of such commands a list of edits; the commands are all applied just when the edits all succeed. So what
is known of edits on an empty tree, in another order and made once more is known of the commands.
-/
import StateScript.Proofs.Run.Step
import StateScript.Proofs.Tree.Exchange
import StateScript.Proofs.Tree.Replay

namespace StateScript

/-! ## One command -/

theorem Effect.status_ofWritten (path : Path) (written : Json.Written) :
    (Effect.ofWritten path written).status = .applied ↔ written.error? = none := by
  unfold ofWritten
  rcases written.error? with _ | (_ | _) <;> simp

theorem Path.set_eq_edited (path : Path) (operand : Operand) (root : Json) :
    (path.set operand root).tree = root.edited ⟨path.segments, operand⟩ ∧
      ((path.set operand root).status = .applied ↔ root.Takes ⟨path.segments, operand⟩) := by
  cases operand with
  | undefined => exact ⟨rfl, iff_of_true rfl nofun⟩
  | value json =>
    rw [set, write, Effect.tree_ofWritten, Effect.status_ofWritten]
    refine ⟨rfl, ?_⟩
    constructor
    · rintro h _ ⟨⟩
      exact h
    · intro h
      exact h json rfl

namespace Command

/-- The edit that a set command makes. -/
def edit? (command : Command) : Option Edit :=
  match command.verb, command.path?, command.operands with
  | .set, some path, operand :: _ => some ⟨path.segments, operand⟩
  | _, _, _ => none

variable {command : Command} {edit : Edit}

theorem edit?_eq_some_iff : command.edit? = some edit ↔
    command.verb = .set ∧ ∃ path operand rest, command.path? = some path ∧ command.operands = operand :: rest ∧
      edit = ⟨path.segments, operand⟩ := by
  constructor
  · intro h
    unfold edit? at h
    split at h
    · next path operand rest hverb hpath hoperands =>
      cases h
      exact ⟨hverb, path, operand, rest, hpath, hoperands, rfl⟩
    · cases h
  · rintro ⟨hverb, path, operand, rest, hpath, hoperands, rfl⟩
    rw [edit?, hverb, hpath, hoperands]

theorem path_ne_nil_of_edit? (h : command.edit? = some edit) : edit.path ≠ [] := by
  obtain ⟨-, path, operand, rest, -, -, rfl⟩ := edit?_eq_some_iff.1 h
  exact path.nonempty

/-- The command leaves the tree that its edit leaves, and is applied if the edit succeeds. -/
theorem onState_of_edit? (h : command.edit? = some edit) (rootKey : String) (members : List (String × Json)) :
    ∃ status, command.onState rootKey (.object members) =
        ⟨.object (Members.put rootKey ((rootTree rootKey members).edited edit) members), status⟩ ∧
      (status = .applied ↔ (rootTree rootKey members).Takes edit) := by
  obtain ⟨hverb, path, operand, rest, hpath, hoperands, rfl⟩ := edit?_eq_some_iff.1 h
  have heffect : command.onRoot path (rootTree rootKey members) = path.set operand (rootTree rootKey members) := by
    unfold operands at hoperands
    rw [onRoot, hverb, hoperands]
  obtain ⟨htree, hstatus⟩ := path.set_eq_edited operand (rootTree rootKey members)
  refine ⟨_, ?_, hstatus⟩
  rw [onState_object hpath, heffect, htree]

/-- A set command that is applied makes an edit. -/
theorem exists_edit?_of_applied (hverb : command.verb = .set) {rootKey : String} {state : Json}
    (h : (command.onState rootKey state).status = .applied) : ∃ edit, command.edit? = some edit := by
  rcases command.onState_cases rootKey state with ⟨error, he⟩ | ⟨path, members, hpath, rfl, he⟩
  · rw [he] at h
    cases h
  · rw [he] at h
    cases hoperands : command.operands with
    | nil =>
      unfold operands at hoperands
      rw [onRoot, hverb, hoperands] at h
      cases h
    | cons operand rest => exact ⟨_, edit?_eq_some_iff.2 ⟨hverb, path, operand, rest, hpath, hoperands, rfl⟩⟩

end Command

/-! ## Lists of commands -/

namespace Run

/-- The state after a run: the one it gives out, or else the one before. -/
def after (rootKey : String) (commands : List Command) (state : Json) : Json :=
  (ofCommands rootKey commands state).outcome.state?.getD state

variable {rootKey : String} {commands : List Command} {members : List (String × Json)} {state : Json}

theorem after_cases (rootKey : String) (commands : List Command) (state : Json) :
    after rootKey commands state = (ofCommands rootKey commands state).state ∨
      after rootKey commands state = state := by
  rw [after, state?_outcome]
  split
  · exact .inl rfl
  · exact .inr rfl

/-- After a run in which every command was applied there is the working copy. -/
theorem after_of_applied (h : (ofCommands rootKey commands state).reports = commands.map (⟨·, .applied⟩)) :
    after rootKey commands state = (ofCommands rootKey commands state).state := by
  cases commands with
  | nil => rfl
  | cons command rest =>
    rw [after, state?_outcome, h, List.map_cons, List.any_cons]
    rfl

/-- Commands that make edits leave the tree that the edits leave, and are all applied if these all succeed. -/
theorem ofCommands_of_edits : ∀ {commands : List Command} (tree : Json) (members : List (String × Json)),
    (∀ command ∈ commands, ∃ edit, command.edit? = some edit) →
    let run := ofCommands rootKey commands (.object (Members.put rootKey tree members))
    run.state = .object (Members.put rootKey ((commands.filterMap Command.edit?).foldl Json.edited tree) members) ∧
      (run.reports = commands.map (⟨·, .applied⟩) ↔
        Throughout Json.edited Json.Takes tree (commands.filterMap Command.edit?))
  | [], _, _, _ => ⟨rfl, iff_of_true rfl trivial⟩
  | command :: rest, tree, members, hedits => by
    obtain ⟨⟨edit, hedit⟩, hrest⟩ := List.forall_mem_cons.1 hedits
    obtain ⟨status, hstate, happlied⟩ := Command.onState_of_edit? hedit rootKey (Members.put rootKey tree members)
    rw [rootTree_put, Members.put_put] at hstate
    rw [rootTree_put] at happlied
    obtain ⟨ihstate, ihreports⟩ := ofCommands_of_edits (tree.edited edit) members hrest
    rw [List.filterMap_cons_some hedit]
    simp only [ofCommands, hstate, List.foldl_cons, List.map_cons, List.cons.injEq, Report.mk.injEq, true_and,
      Throughout]
    exact ⟨ihstate, and_congr happlied ihreports⟩

/-- The first command makes the root key anyway. -/
theorem ofCommands_put_rootTree (hne : commands ≠ [])
    (hedits : ∀ command ∈ commands, ∃ edit, command.edit? = some edit) :
    ofCommands rootKey commands (.object (Members.put rootKey (rootTree rootKey members) members)) =
      ofCommands rootKey commands (.object members) := by
  obtain ⟨command, rest, rfl⟩ := List.exists_cons_of_ne_nil hne
  obtain ⟨edit, hedit⟩ := hedits command List.mem_cons_self
  obtain ⟨-, path, -, -, hpath, -, -⟩ := Command.edit?_eq_some_iff.1 hedit
  have hsame : command.onState rootKey (.object (Members.put rootKey (rootTree rootKey members) members)) =
      command.onState rootKey (.object members) := by
    rw [Command.onState_object hpath, Command.onState_object hpath, rootTree_put, Members.put_put]
  simp only [ofCommands, hsame]

/-- Commands whose edits all succeed are all applied and leave the tree that the edits leave. -/
theorem after_of_throughout (hne : commands ≠ []) (hedits : ∀ command ∈ commands, ∃ edit, command.edit? = some edit)
    (htakes : Throughout Json.edited Json.Takes (rootTree rootKey members) (commands.filterMap Command.edit?)) :
    (ofCommands rootKey commands (.object members)).reports = commands.map (⟨·, .applied⟩) ∧
      after rootKey commands (.object members) =
        .object (Members.put rootKey
          ((commands.filterMap Command.edit?).foldl Json.edited (rootTree rootKey members)) members) := by
  obtain ⟨hstate, hreports⟩ := ofCommands_of_edits (rootTree rootKey members) members hedits
  rw [ofCommands_put_rootTree hne hedits] at hstate hreports
  have happlied := hreports.2 htakes
  exact ⟨happlied, (after_of_applied happlied).trans hstate⟩

/-! ## On an empty tree -/

/-- The commands set values along keys, and none of their paths begins with another. -/
structure SetsKeys (commands : List Command) : Prop where
  sets : ∀ command ∈ commands, ∃ path value, command.edit? = some ⟨path, .value value⟩ ∧
    ∀ segment ∈ path, arrayIndex? segment = none
  apart : (commands.filterMap Command.edit?).Pairwise fun e f => ¬ e.path <+: f.path ∧ ¬ f.path <+: e.path

namespace SetsKeys

theorem perm {others : List Command} (h : SetsKeys commands) (hperm : commands.Perm others) : SetsKeys others :=
  ⟨fun command hcommand => h.sets command (hperm.mem_iff.2 hcommand),
    (hperm.filterMap Command.edit?).pairwise h.apart And.symm⟩

theorem exists_edit? (h : SetsKeys commands) : ∀ command ∈ commands, ∃ edit, command.edit? = some edit := by
  intro command hcommand
  obtain ⟨path, value, hset, -⟩ := h.sets command hcommand
  exact ⟨_, hset⟩

theorem edits (h : SetsKeys commands) :
    ∀ e ∈ commands.filterMap Command.edit?, e.IsWrite ∧ e.IsKeyed ∧ e.path ≠ [] := by
  intro e he
  obtain ⟨command, hcommand, hedit⟩ := List.mem_filterMap.1 he
  obtain ⟨path, value, hset, hkeys⟩ := h.sets command hcommand
  have hpath := Command.path_ne_nil_of_edit? hset
  rw [hset] at hedit
  cases hedit
  exact ⟨⟨value, rfl⟩, hkeys, hpath⟩

theorem pairwise_parts (h : SetsKeys commands) : (commands.filterMap Command.edit?).Pairwise Edit.Parts := by
  refine h.apart.imp_of_mem ?_
  rintro e f he - ⟨hef, hfe⟩
  exact diverges_of_not_isPrefix (h.edits e he).2.1 hef hfe

/-- On an empty tree the commands are all applied. -/
theorem after_of_empty (h : SetsKeys commands) (hne : commands ≠ []) (hempty : rootTree rootKey members = .object []) :
    Throughout Json.edited Json.Takes (.object []) (commands.filterMap Command.edit?) ∧
      (ofCommands rootKey commands (.object members)).reports = commands.map (⟨·, .applied⟩) ∧
      after rootKey commands (.object members) =
        .object (Members.put rootKey ((commands.filterMap Command.edit?).foldl Json.edited (.object [])) members) := by
  have htakes : Throughout Json.edited Json.Takes (.object []) (commands.filterMap Command.edit?) :=
    Json.throughout_takes_of_isKeyed h.pairwise_parts (fun e he => (h.edits e he).1) (fun e he => (h.edits e he).2.1)
      fun e he => (h.edits e he).2.2
  have hafter := after_of_throughout hne h.exists_edit? (hempty.symm ▸ htakes)
  rw [hempty] at hafter
  exact ⟨htakes, hafter⟩

end SetsKeys

/-- Where there is no tree under the root key or an empty object, commands that set values along keys, none of
the paths beginning with another, are all applied; each path leads to its value afterwards; and in every order
the commands leave the same state, but for the order of members. -/
theorem after_keyed_sets
    (hroot : Members.get? rootKey members = none ∨ Members.get? rootKey members = some (.object []))
    (h : SetsKeys commands) :
    (ofCommands rootKey commands (.object members)).reports = commands.map (⟨·, .applied⟩) ∧
      (∀ command ∈ commands, ∀ path value, command.edit? = some ⟨path, .value value⟩ →
        (after rootKey commands (.object members)).get? (rootKey :: path) = some value) ∧
      ∀ others, commands.Perm others →
        (after rootKey others (.object members)).Alike (after rootKey commands (.object members)) := by
  by_cases hne : commands = []
  · subst hne
    refine ⟨rfl, by simp, fun others hperm => ?_⟩
    rw [List.nil_perm.1 hperm]
  have hempty : rootTree rootKey members = .object [] := by
    rcases hroot with h | h <;> rw [rootTree, h] <;> rfl
  have hwrites : ∀ e ∈ commands.filterMap Command.edit?, e.IsWrite := fun e he => (h.edits e he).1
  obtain ⟨htakes, happlied, hafter⟩ := h.after_of_empty hne hempty
  rw [hafter]
  refine ⟨happlied, ?_, ?_⟩
  · intro command hcommand path value hset
    have hmem : (⟨path, .value value⟩ : Edit) ∈ commands.filterMap Command.edit? :=
      List.mem_filterMap.2 ⟨command, hcommand, hset⟩
    rw [Json.get?, Json.child?, Members.get?_put_self, Option.bind_some]
    exact Json.get?_foldl_edited rfl h.pairwise_parts hwrites htakes hmem
  · intro others hperm
    have hne' : others ≠ [] := fun hnil => hne (List.perm_nil.1 (hnil ▸ hperm))
    obtain ⟨htakes', -, hafter'⟩ := (h.perm hperm).after_of_empty hne' hempty
    rw [hafter']
    have halike := Json.alike_of_writes (hperm.filterMap Command.edit?) h.pairwise_parts hwrites
      (fun e he => (h.edits e he).2.2) htakes htakes'
    exact halike.symm.put rootKey members

/-- Three values go into one object, one of them an object itself, and a key has a point. -/
theorem after_keyed_sets_shared_object :
    let commands : List Command :=
      [⟨.set, ["'a.b'", "\x7b\"k\": []\x7d"]⟩, ⟨.set, ["a.c", "1"]⟩, ⟨.set, ["'a[\"x.0\"]'", "'v'"]⟩]
    let members : List (String × Json) := [("n", .null)]
    (Members.get? "s" members = none ∨ Members.get? "s" members = some (.object [])) ∧
      SetsKeys commands ∧ (after "s" commands (.object members)).get? ["s", "a", "x.0"] = some (.string "v") ∧
      (after "s" commands.reverse (.object members)).Alike (after "s" commands (.object members)) := by
  intro commands members
  have hb : (⟨.set, ["'a.b'", "\x7b\"k\": []\x7d"]⟩ : Command).edit? =
      some ⟨["a", "b"], .value (.object [("k", .array [])])⟩ := by decide +kernel
  have hc : (⟨.set, ["a.c", "1"]⟩ : Command).edit? =
      some ⟨["a", "c"], .value (.number (.int 1 (by decide)))⟩ := by decide +kernel
  have hx : (⟨.set, ["'a[\"x.0\"]'", "'v'"]⟩ : Command).edit? = some ⟨["a", "x.0"], .value (.string "v")⟩ := by
    decide +kernel
  have hroot : Members.get? "s" members = none ∨ Members.get? "s" members = some (.object []) := .inl rfl
  have h : SetsKeys commands := by
    constructor
    · simp only [commands, List.forall_mem_cons]
      exact ⟨⟨_, _, hb, by decide⟩, ⟨_, _, hc, by decide⟩, ⟨_, _, hx, by decide⟩, List.forall_mem_nil _⟩
    · simp only [commands, List.filterMap_cons, hb, hc, hx, List.filterMap_nil]
      decide
  obtain ⟨-, hread, horder⟩ := after_keyed_sets hroot h
  exact ⟨hroot, h, hread _ (by simp [commands]) _ _ hx, horder _ (List.reverse_perm _).symm⟩

/-! ## Once more -/

theorem exists_edit?_of_reports : ∀ {commands : List Command} {state : Json},
    (∀ command ∈ commands, command.verb = .set) →
    (ofCommands rootKey commands state).reports = commands.map (⟨·, .applied⟩) →
    ∀ command ∈ commands, ∃ edit, command.edit? = some edit
  | [], _, _, _ => nofun
  | command :: rest, state, hverbs, happlied => by
    obtain ⟨hverb, hverbs⟩ := List.forall_mem_cons.1 hverbs
    obtain ⟨hreport, hreports⟩ := List.cons.inj happlied
    refine List.forall_mem_cons.2 ⟨?_, exists_edit?_of_reports hverbs hreports⟩
    exact Command.exists_edit?_of_applied hverb (congrArg Report.status hreport)

/-- Set commands that are all applied to a state leave what they leave of it, run once more, but for the order
of members. -/
theorem after_sets_again (hsets : ∀ command ∈ commands, command.verb = .set)
    (happlied : (ofCommands rootKey commands (.object members)).reports = commands.map (⟨·, .applied⟩)) :
    let left := after rootKey commands (.object members)
    (after rootKey commands left).Alike left := by
  intro left
  by_cases hne : commands = []
  · subst hne
    rfl
  have hedits := exists_edit?_of_reports hsets happlied
  obtain ⟨-, hreports⟩ := ofCommands_of_edits (rootTree rootKey members) members hedits
  rw [ofCommands_put_rootTree hne hedits] at hreports
  have htakes := hreports.1 happlied
  have hpath : ∀ e ∈ commands.filterMap Command.edit?, e.path ≠ [] := by
    intro e he
    obtain ⟨command, -, hedit⟩ := List.mem_filterMap.1 he
    exact Command.path_ne_nil_of_edit? hedit
  have hleft : left = _ := (after_of_throughout hne hedits htakes).2
  rcases after_cases rootKey commands left with hafter | hafter
  · rw [hafter, hleft, (ofCommands_of_edits _ members hedits).1]
    exact (Json.foldl_edited_again hpath htakes).put rootKey members
  · rw [hafter]

/-- A member taken away and made again changes its place, and the first write to `c`, which made an object of it,
is refused by the array that the last has made of it. -/
theorem after_sets_again_refused :
    let commands : List Command := [⟨.set, ["a", "undefined"]⟩, ⟨.set, ["a", "true"]⟩, ⟨.set, ["c.x", "1"]⟩,
      ⟨.set, ["c", "null"]⟩, ⟨.set, ["c[0]", "false"]⟩]
    let left : Json := .object [("s", .object [("a", .bool true), ("c", .array [.bool false])])]
    (∀ command ∈ commands, command.verb = .set) ∧
      (ofCommands "s" commands (.object [("s", .string "")])).reports = commands.map (⟨·, .applied⟩) ∧
      after "s" commands (.object [("s", .string "")]) = left ∧
      (ofCommands "s" commands left).reports.map (·.status) =
        [.applied, .applied, .failed (.pathConflict "c.x" "x"), .applied, .applied] ∧
      (after "s" commands left).Alike left := by
  intro commands left
  have hsets : ∀ command ∈ commands, command.verb = .set := by decide
  have happlied : (ofCommands "s" commands (.object [("s", .string "")])).reports = commands.map (⟨·, .applied⟩) := by
    decide +kernel
  have hleft : after "s" commands (.object [("s", .string "")]) = left := by decide +kernel
  have hstatus : (ofCommands "s" commands left).reports.map (·.status) =
      [.applied, .applied, .failed (.pathConflict "c.x" "x"), .applied, .applied] := by decide +kernel
  have halike := after_sets_again hsets happlied
  rw [hleft] at halike
  exact ⟨hsets, happlied, hleft, hstatus, halike⟩

end Run

end StateScript
