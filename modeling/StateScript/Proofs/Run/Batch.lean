/-
Runs in batches. Two lists of commands, each run on a copy of the state that the one before it gave out,
report and give out what they do as one list, as long as no command fails for an index out of range.

The second batch does not start from the working copy of the first, but from the state given out: where
the first batch changed nothing, this is the state before it, and the two differ in nothing but the root
key. No command sees this difference, and an applied one makes the key anyway.
-/
import StateScript.Proofs.Run.Isolation

namespace StateScript

/-! ## States that differ in nothing but the root key -/

/-- A command meets the same fate on both states, and leaves states that again differ in nothing but the
root key. -/
theorem Command.onState_congr {rootKey : String} (command : Command) {s t : Json}
    (hst : withRootKey rootKey s = withRootKey rootKey t) :
    (command.onState rootKey s).status = (command.onState rootKey t).status ∧
      withRootKey rootKey (command.onState rootKey s).tree = withRootKey rootKey (command.onState rootKey t).tree := by
  rcases hpath : command.path? with _ | path
  · obtain ⟨_, h⟩ := onState_of_path?_eq_none hpath rootKey
    rw [h s, h t]
    exact ⟨rfl, hst⟩
  · by_cases hobject : (∃ members, s = .object members) ∧ ∃ members, t = .object members
    · obtain ⟨⟨members, rfl⟩, others, rfl⟩ := hobject
      have hput : Members.put rootKey (rootTree rootKey members) members =
          Members.put rootKey (rootTree rootKey others) others := Json.object.inj hst
      have hroot : rootTree rootKey members = rootTree rootKey others := by
        rw [← rootTree_put rootKey (rootTree rootKey members) members, hput, rootTree_put]
      rw [onState_object hpath, onState_object hpath, ← hroot, withRootKey_put, withRootKey_put]
      refine ⟨rfl, ?_⟩
      rw [← Members.put_put rootKey (rootTree rootKey members) _ members, hput, Members.put_put]
    · have hsame : s = t := by
        cases s <;> cases t <;> simp_all [withRootKey]
      rw [hsame]
      exact ⟨rfl, rfl⟩

namespace Run

variable {rootKey : String} {front back commands : List Command} {state : Json}

theorem ofCommands_congr : ∀ (commands : List Command) {s t : Json},
    withRootKey rootKey s = withRootKey rootKey t →
    (ofCommands rootKey commands s).reports = (ofCommands rootKey commands t).reports ∧
      withRootKey rootKey (ofCommands rootKey commands s).state =
        withRootKey rootKey (ofCommands rootKey commands t).state
  | [], _, _, hst => ⟨rfl, hst⟩
  | command :: rest, s, t, hst => by
    obtain ⟨hstatus, htree⟩ := command.onState_congr hst
    obtain ⟨hreports, hstate⟩ := ofCommands_congr rest htree
    refine ⟨?_, hstate⟩
    simp only [ofCommands, hstatus, hreports]

/-! ## Batches -/

theorem IsWhole.of_append (h : IsWhole rootKey (front ++ back) state) :
    IsWhole rootKey front state ∧ IsWhole rootKey back (ofCommands rootKey front state).state := by
  constructor
  · rintro before command after rfl
    exact h before command (after ++ back) (by simp)
  · rintro before command after rfl
    rw [← state_ofCommands_append]
    exact h (front ++ before) command after (by simp)

/-- A whole run in which no command is applied leaves the state, the root key aside. -/
theorem withRootKey_of_none_applied : ∀ {commands : List Command} {state : Json}, IsWhole rootKey commands state →
    (ofCommands rootKey commands state).reports.any (·.status = .applied) = false →
    withRootKey rootKey (ofCommands rootKey commands state).state = withRootKey rootKey state
  | [], _, _, _ => rfl
  | command :: rest, state, hwhole, hnone => by
    obtain ⟨hbreaks, hrest⟩ := isWhole_cons_iff.1 hwhole
    simp only [ofCommands, List.any_cons, Bool.or_eq_false_iff, decide_eq_false_iff_not] at hnone
    rw [← Command.withRootKey_of_not_applied hnone.1 hbreaks]
    exact withRootKey_of_none_applied hrest hnone.2

/-- The state given out has the root key if the one before had it, and where no command of a whole run
was applied it is that one. -/
theorem state_eq_of_none_applied (hwhole : IsWhole rootKey commands state)
    (hnone : (ofCommands rootKey commands state).reports.any (·.status = .applied) = false)
    (hkey : withRootKey rootKey state = state) : (ofCommands rootKey commands state).state = state := by
  rw [← withRootKey_of_applied (.inl hkey), withRootKey_of_none_applied hwhole hnone, hkey]

theorem append_of_isWhole (hwhole : IsWhole rootKey (front ++ back) state) :
    let first := ofCommands rootKey front state
    let second := ofCommands rootKey back (first.outcome.state?.getD state)
    (ofCommands rootKey (front ++ back) state).reports = first.reports ++ second.reports ∧
      (ofCommands rootKey (front ++ back) state).outcome.state? =
        second.outcome.state?.or first.outcome.state? := by
  intro first second
  obtain ⟨hfront, hback⟩ := hwhole.of_append
  rw [state?_outcome, reports_ofCommands_append, state_ofCommands_append, List.any_append]
  cases hfirst : first.reports.any (·.status = .applied) with
  | true =>
    -- the second batch goes on from the working copy
    have hsecond : second = ofCommands rootKey back first.state := by
      simp only [second, state?_outcome, hfirst, if_true, Option.getD_some]
    refine ⟨by rw [hsecond], ?_⟩
    rw [hsecond, state?_outcome, state?_outcome, hfirst, Bool.true_or, if_pos rfl, if_pos rfl]
    split
    · rfl
    · next hany =>
      have hkey : withRootKey rootKey first.state = first.state := withRootKey_of_applied (.inr hfirst)
      rw [Option.none_or]
      exact congrArg some (state_eq_of_none_applied hback (Bool.eq_false_iff.2 hany) hkey)
  | false =>
    -- the second batch starts over from the state
    have hsecond : second = ofCommands rootKey back state := by
      simp only [second, state?_outcome, hfirst, Bool.false_eq_true, if_false, Option.getD_none]
    obtain ⟨hreports, hstate⟩ := ofCommands_congr back (withRootKey_of_none_applied hfront hfirst)
    refine ⟨by rw [hsecond, ← hreports], ?_⟩
    rw [hsecond, state?_outcome, state?_outcome, hfirst, Bool.false_or, if_neg Bool.false_ne_true, Option.or_none,
      ← hreports]
    split
    · next hany =>
      rw [← withRootKey_of_applied (.inr hany), hstate, withRootKey_of_applied (.inr (hreports ▸ hany))]
    · rfl

/-- Where no command fails for an index out of range, two batches report what the whole list reports, and
the last of their states that is a changed one is the state that the whole list gives out. -/
theorem append_eq_batches
    (hrange : ∀ report ∈ (ofCommands rootKey (front ++ back) state).reports, ∀ path index,
      report.status ≠ .failed (.indexOutOfRange path index)) :
    let first := ofCommands rootKey front state
    let second := ofCommands rootKey back (first.outcome.state?.getD state)
    (ofCommands rootKey (front ++ back) state).reports = first.reports ++ second.reports ∧
      (ofCommands rootKey (front ++ back) state).outcome.state? =
        second.outcome.state?.or first.outcome.state? :=
  append_of_isWhole (isWhole_of_reports hrange)

/-- The first batch does nothing but make the root key, which the second starts without. -/
theorem append_eq_batches_idle_first :
    let front : List Command := [⟨.add, ["n", "1"]⟩]
    let back : List Command := [⟨.set, ["'list[0]'", "1"]⟩, ⟨.set, ["list.x", "2"]⟩]
    let state : Json := .object [("a", .null)]
    (∀ report ∈ (ofCommands "s" (front ++ back) state).reports, ∀ path index,
        report.status ≠ .failed (.indexOutOfRange path index)) ∧
      (ofCommands "s" front state).outcome.state? = none ∧
      (ofCommands "s" (front ++ back) state).outcome.state? =
        (ofCommands "s" back state).outcome.state? := by
  intro front back state
  have hstatus : (ofCommands "s" (front ++ back) state).reports.map (·.status) =
      [.noOp, .applied, .failed (.pathConflict "list.x" "x")] := by decide +kernel
  have hrange : ∀ report ∈ (ofCommands "s" (front ++ back) state).reports, ∀ path index,
      report.status ≠ .failed (.indexOutOfRange path index) := by
    intro report hreport path index hs
    have hmem := List.mem_map_of_mem (f := (·.status)) hreport
    rw [hstatus, hs] at hmem
    simp at hmem
  have hidle : (ofCommands "s" front state).outcome.state? = none := by
    have hnone : (ofCommands "s" front state).reports.any (·.status = .applied) = false := by decide +kernel
    rw [state?_outcome, hnone, if_neg Bool.false_ne_true]
  have h := (append_eq_batches hrange).2
  rw [hidle, Option.getD_none, Option.or_none] at h
  exact ⟨hrange, hidle, h⟩

end Run

end StateScript
