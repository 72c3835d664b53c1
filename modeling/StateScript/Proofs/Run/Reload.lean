/-
Printed states can be loaded again. A state that was read has no key twice in an object, and no command brings
one in; so the text that `apply` prints of a new state without floats is read as just this state, wherever no
more than 127 containers nest in it.

No command looks how deep it writes, and a path may have any number of segments. But how deep a command can
reach is known before it runs, from its path and its operands; and a run whose commands all stay within the
limit leaves a state within it.
-/
import StateScript.CommandLine
import StateScript.Proofs.Operand.Fits
import StateScript.Proofs.Path.Spelling
import StateScript.Proofs.Run.SetCall
import StateScript.Proofs.Tree.Fits

namespace StateScript

/-! ## Paths -/

namespace Path

variable {m n : Nat} {root : Json} {path : Path} {operand key value : Operand}

theorem fits_write (h : root.Fits n) {json : Json} (hjson : json.Fits m) (hpath : path.segments.length + m ≤ n) :
    (path.write json root).tree.Fits n := by
  rw [write, Effect.tree_ofWritten]
  exact h.write hjson hpath

theorem fits_erase (h : root.Fits n) : (path.erase root).tree.Fits n := by
  rw [erase]
  cases hnew : root.erase? path.segments with
  | none => exact h
  | some new => exact h.erase? hnew

theorem fits_update (h : root.Fits n) {f : Json → Json}
    (hf : ∀ k old, n = path.segments.length + k → old.Fits k → (f old).Fits k) : (path.update f root).tree.Fits n := by
  rw [update]
  cases hnew : root.update? f path.segments with
  | none => exact h
  | some new => exact h.update? hf hnew

theorem fits_set (h : root.Fits n) (hoperand : operand.toJson.Fits m) (hpath : path.segments.length + m ≤ n) :
    (path.set operand root).tree.Fits n := by
  cases operand with
  | undefined => exact fits_erase h
  | value json => exact fits_write h hoperand hpath

/-- A sum stands where a number stood. -/
theorem fits_add (h : root.Fits n) : (path.add operand root).tree.Fits n := by
  unfold add
  split
  · next hget _ =>
    split
    · obtain ⟨k, rfl, -⟩ := h.get? hget
      exact fits_write h (.scalar rfl 0) (Nat.le_add_right _ _)
    · exact h
  · exact h

theorem fits_assign (h : root.Fits n) (hitems : ∀ v ∈ operand.flattened, v.Fits m)
    (hpath : path.segments.length + (m + 2) ≤ n) : (path.assign operand root).tree.Fits n := by
  unfold assign
  split
  · refine fits_update h ?_
    rintro k old rfl hold
    exact hold.extended hitems (by omega)
  · exact fits_write h (Json.fits_of_flattened hitems) (by omega)

theorem fits_assignEntry (h : root.Fits n) (hvalue : value.toJson.Fits m) (hpath : path.segments.length + (m + 1) ≤ n) :
    (path.assignEntry key value root).tree.Fits n := by
  unfold assignEntry
  split
  · next collection hcollection =>
    obtain ⟨old, hget, hentry⟩ := Option.bind_eq_some_iff.1 hcollection
    obtain ⟨k, rfl, hold⟩ := h.get? hget
    refine fits_update h ?_
    intro j _ hj _
    obtain rfl : k = j := Nat.add_left_cancel hj
    exact hold.withEntry? hvalue (by omega) hentry
  · exact fits_write h (Json.fits_object_singleton hvalue key.keyText) hpath

theorem fits_removeEntry (h : root.Fits n) : (path.removeEntry operand root).tree.Fits n :=
  fits_update h fun _ _ _ hold => hold.withoutEntry operand

end Path

/-! ## Commands -/

namespace Command

/-- The most containers that nest where the command puts something: those on the way there, a list and its tuple
about what is added to it, and those in what it puts there. -/
def reach (command : Command) (path : Path) : Nat :=
  match command.verb, command.operands with
  | .set, operand :: _ => path.segments.length + operand.toJson.depth
  | .assign, [operand] | .insert, [operand] => path.segments.length + (Json.depthOfItems operand.flattened + 2)
  | .assign, _ :: value :: _ | .insert, _ :: value :: _ => path.segments.length + (value.toJson.depth + 1)
  | _, _ => 0

variable {n : Nat} {root : Json} {command : Command} {path : Path}

theorem fits_of_mem_operands {operand : Operand} (h : operand ∈ command.operands) :
    operand.toJson.Fits operand.toJson.depth := by
  obtain ⟨raw, -, rfl⟩ := List.mem_map.1 h
  exact (Operand.fits_ofText _).of_depth_le (Nat.le_refl _)

theorem fits_onRoot (h : root.Fits n) (hreach : command.reach path ≤ n) : (command.onRoot path root).tree.Fits n := by
  have hoperands : ∀ operand ∈ command.operands, operand.toJson.Fits operand.toJson.depth :=
    fun _ => fits_of_mem_operands
  have hassign : ∀ operand, command.operands = [operand] →
      path.segments.length + (Json.depthOfItems operand.flattened + 2) ≤ n →
      (path.assign operand root).tree.Fits n := by
    intro operand h1 hpath
    refine Path.fits_assign h ?_ hpath
    intro v hv
    have hv' := Json.fits_flattened (hoperands operand (h1 ▸ List.mem_cons_self)) v hv
    exact hv'.of_depth_le (Json.depthOfItems_le_iff.1 (Nat.le_refl _) v hv)
  have hassignEntry : ∀ key value rest, command.operands = key :: value :: rest →
      path.segments.length + (value.toJson.depth + 1) ≤ n → (path.assignEntry key value root).tree.Fits n := by
    intro key value rest h2 hpath
    exact Path.fits_assignEntry h (hoperands value (h2 ▸ List.mem_cons_of_mem key List.mem_cons_self)) hpath
  unfold reach at hreach
  unfold onRoot
  rw [← operands]
  split
  · next operand rest hverb h1 =>
    rw [hverb, h1] at hreach
    exact Path.fits_set h (hoperands operand (h1 ▸ List.mem_cons_self)) hreach
  -- a sum, and what a removal leaves, are no deeper than before, so nothing is asked of their reach
  · exact Path.fits_add h
  · exact Path.fits_erase h
  · exact Path.fits_removeEntry h
  · next hverb h1 =>
    rw [hverb, h1] at hreach
    exact hassign _ h1 hreach
  · next hverb h1 =>
    rw [hverb, h1] at hreach
    exact hassign _ h1 hreach
  · next hverb h2 =>
    rw [hverb, h2] at hreach
    exact hassignEntry _ _ _ h2 hreach
  · next hverb h2 =>
    rw [hverb, h2] at hreach
    exact hassignEntry _ _ _ h2 hreach
  · exact h

/-- Beside what the command reaches, the wrapper is a container, and so is what is made under its root key. -/
theorem fits_onState {rootKey : String} {state : Json} (h : state.Fits (n + 2))
    (hreach : ∀ path, command.path? = some path → command.reach path ≤ n + 1) :
    (command.onState rootKey state).tree.Fits (n + 2) := by
  rcases command.onState_cases rootKey state with ⟨error, hstate⟩ | ⟨path, members, hpath, rfl, hstate⟩
  · rw [hstate]
    exact h
  · -- the empty object under a new root key wants room too, also where the command then does nothing
    have hroot : (rootTree rootKey members).Fits (n + 1) := by
      unfold rootTree
      cases hget : Members.get? rootKey members with
      | none => exact .object List.nodup_nil (List.forall_mem_nil _)
      | some root => exact (Json.fits_object_iff.1 h).2 _ (Members.mem_of_get? hget)
    rw [hstate]
    exact h.put (fits_onRoot hroot (hreach path hpath)) rootKey

end Command

/-! ## Runs -/

namespace Run

variable {rootKey : String} {commands : List Command} {state : Json}

/-- A run of commands that all stay within a limit leaves a state within it. -/
theorem fits_ofCommands {n : Nat} (h : state.Fits (n + 2))
    (hreach : ∀ command ∈ commands, ∀ path, command.path? = some path → command.reach path ≤ n + 1) :
    (ofCommands rootKey commands state).state.Fits (n + 2) :=
  state_induction (fun command hcommand _ hstate => command.fits_onState hstate (hreach command hcommand)) h

/-- Whatever the commands reach, no key comes twice. -/
theorem exists_fits_ofCommands (h : ∃ n, state.Fits n) : ∃ n, (ofCommands rootKey commands state).state.Fits n := by
  refine state_induction (P := fun state => ∃ n, state.Fits n) ?_ h
  rintro command - state ⟨n, hstate⟩
  -- there is no limit to keep, so the command is given the room it needs
  have hdeep : ∃ m, ∀ path, command.path? = some path → command.reach path ≤ m + 1 := by
    cases command.path? with
    | none => exact ⟨0, nofun⟩
    | some path => exact ⟨command.reach path, by rintro _ ⟨⟩; exact Nat.le_succ _⟩
  obtain ⟨m, hreach⟩ := hdeep
  refine ⟨n + m + 2, command.fits_onState (hstate.mono (by omega)) ?_⟩
  intro path hpath
  exact Nat.le_trans (hreach path hpath) (by omega)

theorem state_of_outcome {run : Run} {new : Json} (h : run.outcome = .changed new) : run.state = new := by
  unfold outcome at h
  split at h
  · exact Outcome.changed.inj h
  · cases h

end Run

/-! ## Long paths -/

/-- The points between segments, and one at the end, are passed over. -/
theorem Path.segmentsOf_dotted (n : Nat) :
    segmentsOf (List.replicate n ['a', '.']).flatten = List.replicate n ['a'] := by
  induction n with
  | zero => rw [List.replicate_zero, List.flatten_nil, segmentsOf, List.replicate_zero]
  | succ n ih =>
    have hkey : Text.IsRun isPlain ['a'] := ⟨List.cons_ne_nil _ _, List.forall_mem_singleton.2 rfl⟩
    have hrest : segmentsOf ('.' :: (List.replicate n ['a', '.']).flatten) = List.replicate n ['a'] := by
      rw [segmentsOf_point, ih]
    rw [List.replicate_succ, List.flatten_cons, List.replicate_succ, ← hrest]
    exact segmentsOf_plain_append hkey fun c hc => by cases hc; decide

/-- A write makes an object for each segment but the first. -/
theorem Json.write_replicate (n : Nat) (value : Json) : (object []).write (List.replicate (n + 1) "a") value =
    ⟨Nat.repeat (fun child => object [("a", child)]) (n + 1) value, none⟩ := by
  induction n with
  | zero => rfl
  | succ n ih =>
    have hreadied : null.readied (List.replicate (n + 1) "a") = object [] := rfl
    rw [List.replicate_succ, write]
    simp only [refusal?, child?, Members.get?, Option.getD_none, hreadied, ih, withChild, Members.put]
    rfl

/-! ## What is printed -/

namespace CommandLine

theorem out_applied {rootKey : String} {report : Bool} {state new : Json} {script : String}
    (h : (Run.ofText rootKey script.toList state).outcome = .changed new) :
    (applied rootKey report state script).out = printed new := by
  simp only [applied, h]

/-- Where a script changes a state that was read, and no float is in the new state, the printed text is read as
just this state if no more than 127 containers nest in it, and refused if more do. They do not, where no command
of the script reaches further, the wrapper counted. -/
theorem read?_applied (rootKey : String) (report : Bool) (text : List Char) (state new : Json) (script : String)
    (hstate : Json.read? text = some state)
    (hchanged : (Run.ofText rootKey script.toList state).outcome = .changed new)
    (hnumbers : new.eachNumber Number.isInteger = true) :
    Json.read? (applied rootKey report state script).out.toList =
        (if new.depth ≤ Json.maxDepth then some new else none) ∧
      ((∀ command ∈ (Extraction.ofText script.toList).commands, ∀ path, command.path? = some path →
        1 + command.reach path ≤ Json.maxDepth) → new.depth ≤ Json.maxDepth) := by
  have hfits := Json.fits_of_read? hstate
  have hnew := Run.state_of_outcome hchanged
  constructor
  · have hkept : ∃ n, (Run.ofText rootKey script.toList state).state.Fits n := Run.exists_fits_ofCommands ⟨_, hfits⟩
    obtain ⟨n, hn⟩ := hkept
    rw [hnew] at hn
    rw [out_applied hchanged, printed, String.toList_ofList]
    exact Json.read?_indented hn hnumbers
  · intro hreach
    have hwithin : (Run.ofText rootKey script.toList state).state.Fits (125 + 2) := by
      refine Run.fits_ofCommands hfits ?_
      intro command hcommand path hpath
      have := hreach command hcommand path hpath
      rw [Json.maxDepth] at this
      omega
    rw [hnew] at hwithin
    exact hwithin.depth_le

/-- The last of two values under one key of a literal is kept. -/
theorem read?_applied_repeated_key :
    let script := "_.set('n', \x7ba: 1, a: [2]\x7d);"
    let new : Json := .object [("s", .object [("n", .object [("a", .array [.number (.int 2 (by decide))])])])]
    Json.read? ['\x7b', '\x7d'] = some (.object []) ∧
      (Run.ofText "s" script.toList (.object [])).outcome = .changed new ∧
      new.eachNumber Number.isInteger = true ∧
      (∀ command ∈ (Extraction.ofText script.toList).commands, ∀ path, command.path? = some path →
        1 + command.reach path ≤ Json.maxDepth) ∧
      Json.read? (applied "s" true (.object []) script).out.toList = some new := by
  intro script new
  have hread : Json.read? ['\x7b', '\x7d'] = some (.object []) := by decide +kernel
  have hfound : Extraction.ofText script.toList = ⟨[⟨.set, ["'n'", "\x7ba: 1, a: [2]\x7d"]⟩], []⟩ := by decide +kernel
  have hchanged : (Run.ofText "s" script.toList (.object [])).outcome = .changed new := by
    rw [Run.ofText, hfound]
    decide +kernel
  have hnumbers : new.eachNumber Number.isInteger = true := by decide
  have hreach : ∀ command ∈ (Extraction.ofText script.toList).commands, ∀ path, command.path? = some path →
      1 + command.reach path ≤ Json.maxDepth := by
    rw [hfound]
    decide +kernel
  obtain ⟨hloaded, hdepth⟩ := read?_applied "s" true _ (.object []) new script hread hchanged hnumbers
  rw [if_pos (hdepth hreach)] at hloaded
  exact ⟨hread, hchanged, hnumbers, hreach, hloaded⟩

/-- A path of 127 segments is one too long. -/
theorem read?_applied_long_path :
    ¬ ∀ (rootKey : String) (report : Bool) (text : List Char) (state new : Json) (script : String),
      Json.read? text = some state → (Run.ofText rootKey script.toList state).outcome = .changed new →
      new.eachNumber Number.isInteger = true →
      Json.read? (applied rootKey report state script).out.toList = some new := by
  intro h
  let text := String.ofList (List.replicate 127 ['a', '.']).flatten
  let value : Json := .number (.int 1 (by decide))
  let tree : Json := Nat.repeat (fun child => .object [("a", child)]) 127 value
  have hpath : Path.ofText? text = some ⟨text, List.replicate 127 "a", by decide⟩ := by
    refine Path.ofText?_of_segments ?_ _
    rw [String.toList_ofList, Path.segmentsOf_dotted, List.map_replicate]
  have hplain : ∀ c ∈ text.toList, Text.isQuote c = false ∧ c ≠ '\\' := by
    simp only [text, String.toList_ofList, List.mem_flatten, List.mem_replicate]
    rintro c ⟨_, ⟨-, rfl⟩, hc⟩
    simp only [List.mem_cons, List.not_mem_nil, or_false] at hc
    rcases hc with rfl | rfl <;> decide
  have hread : Json.read? ['\x7b', '\x7d'] = some (.object []) := by decide +kernel
  have hfound : Extraction.ofText (setCall text value) = ⟨[.setting text value], []⟩ := by
    rw [← Command.written_setting]
    exact Extraction.ofText_written (Command.readable_setting hplain rfl (by decide) rfl)
  have hstate : (Command.setting text value).onState "statData" (.object []) =
      ⟨.object [("statData", tree)], .applied⟩ :=
    Command.onState_setting hpath rfl (by decide) (Json.write_replicate 126 value)
  have hchanged : (Run.ofText "statData" (String.ofList (setCall text value)).toList (.object [])).outcome =
      .changed (.object [("statData", tree)]) := by
    rw [String.toList_ofList, Run.ofText, hfound]
    simp only [Run.ofCommands, hstate]
    rfl
  have hdepth := (Json.fits_of_read? (h "statData" false _ _ _ _ hread hchanged (by decide +kernel))).depth_le
  exact absurd hdepth (by decide +kernel)

end CommandLine

end StateScript
