/-
Skipped commands and the outcome. A command that is not applied contributes nothing to the outcome of
a run, with one exception: a write that fails for an index that is too far in an array it has made
itself breaks off and leaves what it has made. In a run where no command breaks off, the commands
reported as applied have the outcome of all of them. A command that breaks off does contribute: with a
removal after it, which changes nothing, the outcome is another one than without it.

The root key is all that any other skipped command leaves behind, and the next applied command makes it
anyway. So the two runs are compared up to the root key, and a run in which some command is applied has
it in both.
-/
import StateScript.Proofs.Run.Step
import StateScript.Proofs.Tree.Refusal

namespace StateScript

/-- The commands of a run that were applied, in order. -/
def Run.kept (run : Run) : List Command := (run.reports.filter (·.status = .applied)).map (·.command)

/-- The command fails for an index that is too far in an array that was not there before it. -/
def Command.BreaksOff (rootKey : String) (command : Command) (state : Json) : Prop :=
  ∃ path members index, command.path? = some path ∧ state = .object members ∧
    (command.onState rootKey state).status = .failed (.indexOutOfRange path.text index) ∧
    ¬ (rootTree rootKey members).Refuses path.segments (.tooFar index)

/-- No command of the run breaks off. -/
def Run.IsWhole (rootKey : String) (commands : List Command) (state : Json) : Prop :=
  ∀ front command back, commands = front ++ command :: back →
    ¬ command.BreaksOff rootKey (ofCommands rootKey front state).state

/-! ## A skipped command on the tree under the root key -/

namespace Command

/-- A command that is not applied leaves the tree, or it fails for an index that no array refused which
stood there. -/
theorem Move.tree_of_not_applied {path : Path} {root : Json} {effect : Effect} (h : Move path root effect)
    (hs : effect.status ≠ .applied) :
    effect.tree = root ∨ ∃ index, effect.status = .failed (.indexOutOfRange path.text index) ∧
      ¬ root.Refuses path.segments (.tooFar index) := by
  cases h with
  | idle => exact .inl rfl
  | lacking _ _ _ => exact .inl rfl
  | overflow => exact .inl rfl
  | erase => exact absurd rfl hs
  | update f => exact absurd rfl hs
  | write value =>
    rw [Path.write, Effect.tree_ofWritten]
    rcases he : (root.write path.segments value).error? with _ | (segment | index)
    · exact absurd (by simp only [Path.write, Effect.ofWritten, he]) hs
    · rw [Json.write_of_refuses value (Json.refuses_of_notAnIndex he)]
      exact .inl rfl
    · by_cases hr : root.Refuses path.segments (.tooFar index)
      · rw [Json.write_of_refuses value hr]
        exact .inl rfl
      · exact .inr ⟨index, by simp only [Effect.ofWritten, he], hr⟩

/-- A command that breaks off changes the tree, at a path that leads nowhere before and after. -/
theorem Move.of_indexOutOfRange {path : Path} {root : Json} {effect : Effect} {index : Nat}
    (h : Move path root effect) (hs : effect.status = .failed (.indexOutOfRange path.text index))
    (hr : ¬ root.Refuses path.segments (.tooFar index)) :
    effect.tree ≠ root ∧ root.get? path.segments = none ∧ effect.tree.get? path.segments = none := by
  cases h with
  | idle => cases hs
  | lacking _ _ _ => cases hs
  | overflow => cases hs
  | erase => cases hs
  | update f => cases hs
  | write value =>
    rw [Path.write] at hs ⊢
    rw [Effect.tree_ofWritten]
    have he : (root.write path.segments value).error? = some (.tooFar index) := by
      unfold Effect.ofWritten at hs
      split at hs <;> simp_all
    have hwritten : root.write path.segments value = ⟨(root.write path.segments value).tree, some (.tooFar index)⟩ := by
      rw [← he]
    refine ⟨fun htree => hr (Json.refuses_of_write_eq (htree ▸ hwritten)), ?_, Json.get?_tree_write_of_error he⟩
    · rcases hw : root.get? path.segments with _ | w
      · rfl
      · rw [Json.error?_write_of_get? hw] at he
        cases he

end Command

/-! ## The root key -/

/-- The state with its root key made, if it is an object. -/
def withRootKey (rootKey : String) : Json → Json
  | .object members => .object (Members.put rootKey (rootTree rootKey members) members)
  | state => state

theorem withRootKey_put (rootKey : String) (root : Json) (members : List (String × Json)) :
    withRootKey rootKey (.object (Members.put rootKey root members)) =
      .object (Members.put rootKey root members) := by
  rw [withRootKey, rootTree_put, Members.put_put]

namespace Command

/-- An applied command does the same on a state that differs in nothing but the root key made. -/
theorem onState_of_withRootKey {rootKey : String} {command : Command} {s t : Json}
    (hst : withRootKey rootKey s = withRootKey rootKey t) (hs : (command.onState rootKey s).status = .applied) :
    command.onState rootKey t = command.onState rootKey s := by
  rcases command.onState_cases rootKey s with ⟨error, h⟩ | ⟨path, members, hpath, rfl, h⟩
  · rw [h] at hs; cases hs
  · cases t with
    | object others =>
      have hput : Members.put rootKey (rootTree rootKey members) members =
          Members.put rootKey (rootTree rootKey others) others := Json.object.inj hst
      have hroot : rootTree rootKey members = rootTree rootKey others := by
        rw [← rootTree_put rootKey (rootTree rootKey members) members, hput, rootTree_put]
      rw [h, onState_object hpath, ← hroot]
      generalize command.onRoot path (rootTree rootKey members) = effect
      rw [← Members.put_put rootKey (rootTree rootKey members) effect.tree members, hput, Members.put_put]
    | _ => cases hst

/-- What an applied command leaves has the root key. -/
theorem withRootKey_of_applied {rootKey : String} {command : Command} {state : Json}
    (hs : (command.onState rootKey state).status = .applied) :
    withRootKey rootKey (command.onState rootKey state).tree = (command.onState rootKey state).tree := by
  rcases command.onState_cases rootKey state with ⟨error, h⟩ | ⟨path, members, hpath, rfl, h⟩
  · rw [h] at hs; cases hs
  · rw [h]; exact withRootKey_put ..

theorem withRootKey_onState {rootKey : String} (command : Command) {state : Json}
    (h : withRootKey rootKey state = state) :
    withRootKey rootKey (command.onState rootKey state).tree = (command.onState rootKey state).tree := by
  rcases command.onState_cases rootKey state with ⟨error, he⟩ | ⟨path, members, hpath, rfl, he⟩
  · rw [he]; exact h
  · rw [he]; exact withRootKey_put ..

/-- A skipped command that does not break off leaves the state, the root key aside. -/
theorem withRootKey_of_not_applied {rootKey : String} {command : Command} {state : Json}
    (hs : (command.onState rootKey state).status ≠ .applied) (hb : ¬ command.BreaksOff rootKey state) :
    withRootKey rootKey (command.onState rootKey state).tree = withRootKey rootKey state := by
  rcases command.onState_cases rootKey state with ⟨error, h⟩ | ⟨path, members, hpath, rfl, h⟩
  · rw [h]
  · rw [h] at hs
    rcases (command.move_onRoot path (rootTree rootKey members)).tree_of_not_applied hs with htree | ⟨index, hi, hr⟩
    · rw [h, htree, withRootKey_put, withRootKey]
    · exact absurd ⟨path, members, index, hpath, rfl, by rw [h]; exact hi, hr⟩ hb

end Command

/-! ## Runs -/

namespace Run

theorem isWhole_cons_iff {rootKey : String} {command : Command} {rest : List Command} {state : Json} :
    IsWhole rootKey (command :: rest) state ↔
      ¬ command.BreaksOff rootKey state ∧ IsWhole rootKey rest (command.onState rootKey state).tree := by
  constructor
  · intro h
    exact ⟨h [] command rest rfl, fun front c back hc => h (command :: front) c back (congrArg (command :: ·) hc)⟩
  · rintro ⟨h, hrest⟩ front c back hc
    cases front with
    | nil => obtain ⟨rfl, rfl⟩ := List.cons.inj hc; exact h
    | cons _ front => obtain ⟨rfl, rfl⟩ := List.cons.inj hc; exact hrest front c back rfl

/-- A run in which no write is too far behind an array's end is whole. -/
theorem isWhole_of_reports {rootKey : String} : ∀ {commands : List Command} {state : Json},
    (∀ report ∈ (ofCommands rootKey commands state).reports, ∀ path index,
      report.status ≠ .failed (.indexOutOfRange path index)) → IsWhole rootKey commands state
  | [], _, _ => fun front _ _ hc => by cases front <;> cases hc
  | command :: rest, state, h => by
    refine isWhole_cons_iff.2 ⟨?_, isWhole_of_reports fun report hr => h report (List.mem_cons_of_mem _ hr)⟩
    rintro ⟨path, members, index, -, -, hs, -⟩
    exact h _ List.mem_cons_self path.text index hs

/-- The commands kept, on a state that differs in nothing but the root key made, are all applied, and
leave what the whole run leaves, the root key aside. -/
theorem ofCommands_kept {rootKey : String} : ∀ {commands : List Command} {s t : Json},
    withRootKey rootKey s = withRootKey rootKey t → IsWhole rootKey commands s →
    withRootKey rootKey (ofCommands rootKey (ofCommands rootKey commands s).kept t).state =
        withRootKey rootKey (ofCommands rootKey commands s).state ∧
      (ofCommands rootKey (ofCommands rootKey commands s).kept t).reports =
        (ofCommands rootKey commands s).reports.filter (·.status = .applied)
  | [], s, t, hst, _ => ⟨hst.symm, rfl⟩
  | command :: rest, s, t, hst, hwhole => by
    obtain ⟨hb, hrest⟩ := isWhole_cons_iff.1 hwhole
    by_cases hs : (command.onState rootKey s).status = .applied
    · have hkept : (ofCommands rootKey (command :: rest) s).kept =
          command :: (ofCommands rootKey rest (command.onState rootKey s).tree).kept := by
        simp [kept, ofCommands, hs]
      have hsame := Command.onState_of_withRootKey hst hs
      obtain ⟨ih1, ih2⟩ := ofCommands_kept (t := (command.onState rootKey t).tree) (by rw [hsame]) hrest
      rw [hkept]
      refine ⟨ih1, ?_⟩
      simp only [ofCommands, hsame, hs, List.filter_cons, decide_true, if_true]
      rw [← ih2, hsame]
    · have hkept : (ofCommands rootKey (command :: rest) s).kept =
          (ofCommands rootKey rest (command.onState rootKey s).tree).kept := by
        simp [kept, ofCommands, hs]
      obtain ⟨ih1, ih2⟩ := ofCommands_kept ((Command.withRootKey_of_not_applied hs hb).trans hst) hrest
      rw [hkept]
      refine ⟨ih1, ?_⟩
      rw [ih2]
      simp only [ofCommands, List.filter_cons, hs, decide_false, Bool.false_eq_true, if_false]

/-- A run in which some command is applied leaves a state that has the root key. -/
theorem withRootKey_of_applied {rootKey : String} : ∀ {commands : List Command} {state : Json},
    (withRootKey rootKey state = state ∨
      (ofCommands rootKey commands state).reports.any (·.status = .applied) = true) →
    withRootKey rootKey (ofCommands rootKey commands state).state = (ofCommands rootKey commands state).state
  | [], state, h => h.resolve_right (by simp [ofCommands])
  | command :: rest, state, h => by
    have hrest : withRootKey rootKey (command.onState rootKey state).tree = (command.onState rootKey state).tree ∨
        (ofCommands rootKey rest (command.onState rootKey state).tree).reports.any (·.status = .applied) = true := by
      rcases h with h | h
      · exact .inl (command.withRootKey_onState h)
      · simp only [ofCommands, List.any_cons, Bool.or_eq_true, decide_eq_true_eq] at h
        exact h.imp Command.withRootKey_of_applied id
    show withRootKey rootKey (ofCommands rootKey rest (command.onState rootKey state).tree).state = _
    exact withRootKey_of_applied hrest

/-- In a whole run the applied commands have the outcome of all. -/
theorem outcome_kept_of_isWhole {rootKey : String} {commands : List Command} {state : Json}
    (hwhole : IsWhole rootKey commands state) :
    (ofCommands rootKey (ofCommands rootKey commands state).kept state).outcome =
      (ofCommands rootKey commands state).outcome := by
  obtain ⟨hstate, hreports⟩ := ofCommands_kept rfl hwhole
  have hany : (ofCommands rootKey (ofCommands rootKey commands state).kept state).reports.any
      (·.status = .applied) = (ofCommands rootKey commands state).reports.any (·.status = .applied) := by
    rw [hreports, List.any_filter]
    simp only [Bool.and_self]
  unfold outcome
  rw [hany]
  split
  · next h =>
    rw [← withRootKey_of_applied (.inr h), ← hstate, withRootKey_of_applied (.inr (hany.trans h))]
  · rfl

/-- A command that breaks off shows as soon as a removal follows it that finds nothing to take away. -/
theorem outcome_kept_ne_of_breaksOff {rootKey : String} {command : Command} {state : Json}
    (hb : command.BreaksOff rootKey state) : ∃ removal : Command, removal.verb = .remove ∧
      (ofCommands rootKey (ofCommands rootKey [command, removal] state).kept state).outcome ≠
        (ofCommands rootKey [command, removal] state).outcome := by
  obtain ⟨path, members, index, hpath, rfl, hs, hr⟩ := hb
  obtain ⟨first, hfirst, hp⟩ := Option.bind_eq_some_iff.1 hpath
  have hstate := Command.onState_object hpath rootKey members
  rw [hstate] at hs
  obtain ⟨hne, hbefore, hafter⟩ := (command.move_onRoot path (rootTree rootKey members)).of_indexOutOfRange hs hr
  generalize (command.onRoot path (rootTree rootKey members)).tree = left at hstate hne hafter
  rw [hs] at hstate
  have hsame : (⟨.remove, [first]⟩ : Command).path? = some path := hp
  have hremoval : ∀ members, (⟨.remove, [first]⟩ : Command).onState rootKey (.object members) =
      ⟨.object (Members.put rootKey (path.erase (rootTree rootKey members)).tree members), .applied⟩ :=
    fun members => Command.onState_object hsame rootKey members
  have herase : ∀ root : Json, root.get? path.segments = none → (path.erase root).tree = root := fun root h => by
    rw [Path.erase, Json.erase?_of_get?_eq_none h, Option.getD_none]
  refine ⟨⟨.remove, [first]⟩, rfl, ?_⟩
  have hkept : (ofCommands rootKey [command, ⟨.remove, [first]⟩] (.object members)).kept =
      [⟨.remove, [first]⟩] := by
    simp [kept, ofCommands, hstate, hremoval]
  rw [hkept]
  simp only [outcome, ofCommands, hstate, hremoval, rootTree_put, herase _ hbefore, herase _ hafter, List.any_cons,
    decide_true, Bool.true_or, Bool.or_true, if_true]
  intro h
  have hget := congrArg (fun outcome => outcome.state?.bind fun state => state.child? rootKey) h
  simp only [Outcome.state?, Option.bind_some, Json.child?, Members.get?_put_self, Option.some.injEq] at hget
  exact hne hget.symm

/-- The commands reported as applied have the outcome of the whole run, unless some command breaks off;
and a command that breaks off does contribute to some outcome. -/
theorem outcome_kept_unless_breaksOff (rootKey : String) :
    (∀ commands state, IsWhole rootKey commands state →
      (ofCommands rootKey (ofCommands rootKey commands state).kept state).outcome =
        (ofCommands rootKey commands state).outcome) ∧
    (∀ command state, command.BreaksOff rootKey state → ∃ removal : Command, removal.verb = .remove ∧
      (ofCommands rootKey (ofCommands rootKey [command, removal] state).kept state).outcome ≠
        (ofCommands rootKey [command, removal] state).outcome) :=
  ⟨fun _ _ => outcome_kept_of_isWhole, fun _ _ => outcome_kept_ne_of_breaksOff⟩

/-- A refused index leaves the list that was made for it: the applied commands alone have another
outcome. -/
theorem outcome_kept_ne_beside_refused_index :
    ¬ ∀ (rootKey : String) (commands : List Command) (state : Json),
      (ofCommands rootKey (ofCommands rootKey commands state).kept state).outcome =
        (ofCommands rootKey commands state).outcome := by
  intro h
  have hlist := congrArg (fun outcome => (outcome.state?.bind (·.get? ["statData", "n"])).isSome)
    (h "statData" [⟨.set, ["'n[1024]'", "1"]⟩, ⟨.set, ["'x'", "1"]⟩] (.object [("statData", .object [])]))
  exact absurd hlist (by decide +kernel)

/-- An idle command that makes the root key, a refused segment and an invalid path contribute nothing. -/
theorem outcome_kept_beside_skipped :
    let commands : List Command := [⟨.add, ["n", "1"]⟩, ⟨.set, ["'list[0]'", "1"]⟩, ⟨.set, ["list.x", "2"]⟩,
      ⟨.set, ["..", "3"]⟩]
    IsWhole "s" commands (.object []) ∧
      (ofCommands "s" [⟨.set, ["'list[0]'", "1"]⟩] (.object [])).outcome =
        (ofCommands "s" commands (.object [])).outcome := by
  intro commands
  have hstatus : (ofCommands "s" commands (.object [])).reports.map (·.status) =
      [.noOp, .applied, .failed (.pathConflict "list.x" "x"), .failed (.invalidPath "..")] := by decide +kernel
  have hkept : (ofCommands "s" commands (.object [])).kept = [⟨.set, ["'list[0]'", "1"]⟩] := by decide +kernel
  have hwhole : IsWhole "s" commands (.object []) := by
    refine isWhole_of_reports fun report hreport path index hs => ?_
    have hmem := List.mem_map_of_mem (f := (·.status)) hreport
    rw [hstatus, hs] at hmem
    simp at hmem
  have h := (outcome_kept_unless_breaksOff "s").1 commands (.object []) hwhole
  rw [hkept] at h
  exact ⟨hwhole, h⟩

end Run

end StateScript
