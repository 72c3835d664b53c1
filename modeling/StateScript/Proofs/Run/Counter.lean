/-
Counters. Commands that add integers of 64 bits with a sign to such an integer are all applied and leave the
exact sum, as long as every sum on the way is such an integer. Beyond them no addition wraps: an integer is
left by an addition of two integers only if it is their sum.

One command takes the number at its path to the sum that `Number.add?` gives, so that a run of them is an
induction over the increments, with the sum so far in place of the first number.
-/
import StateScript.Proofs.Run.Setting
import StateScript.Proofs.Run.Revision
import Mathlib.Algebra.Ring.Int.Defs

namespace StateScript

/-- An addition of two integers gives an integer only if these and their sum are integers of 64 bits with a
sign, and it gives this sum. -/
theorem Number.add?_int_eq_int_iff {i j s : Int} {hi : FitsWord i} {hj : FitsWord j} {hs : FitsWord s} :
    (int i hi).add? (int j hj) = some (int s hs) ↔ s = i + j ∧ FitsSigned i ∧ FitsSigned j ∧ FitsSigned s := by
  have hfloat : ((int i hi).toBinary64?.bind fun x =>
      (int j hj).toBinary64?.bind fun y => (x.add? y).map float) ≠ some (int s hs) := by
    simp [Option.bind_eq_some_iff]
  by_cases hfits : FitsSigned i ∧ FitsSigned j ∧ FitsSigned (i + j)
  · have hexact : exactSum? (int i hi) (int j hj) = some (int (i + j) hfits.2.2.fitsWord) := by
      simp only [exactSum?, signed?, if_pos hfits.1.2, if_pos hfits.2.1.2, dif_pos hfits.2.2]
    rw [add?, hexact, Option.some_inj, int.injEq]
    constructor
    · rintro rfl
      exact ⟨rfl, hfits⟩
    · rintro ⟨rfl, -⟩
      rfl
  · -- beyond these bounds the sum is one of binary64, which is no integer
    have hexact : exactSum? (int i hi) (int j hj) = none := by
      by_cases hi' : i < 0x8000000000000000 <;> by_cases hj' : j < 0x8000000000000000 <;>
        simp only [exactSum?, signed?, hi', hj', if_true, if_false]
      exact dif_neg fun hsum => hfits ⟨⟨hi.1, hi'⟩, ⟨hj.1, hj'⟩, hsum⟩
    rw [add?, hexact]
    refine iff_of_false hfloat ?_
    rintro ⟨rfl, h⟩
    exact hfits h

/-- A number where a number stands is added to it. -/
theorem Path.add_of_get? {path : Path} {root : Json} {n : Number} (h : root.get? path.segments = some (.number n))
    (delta : Number) : path.add (.value (.number delta)) root =
      match n.add? delta with
      | some sum => path.write (.number sum) root
      | none => ⟨root, .failed (.numericOverflow path.text)⟩ := by
  rw [add, h]
  rfl

namespace Command

/-- The command adds a number at a path. -/
structure AddsAt (command : Command) (p : List String) (delta : Number) : Prop where
  verb : command.verb = .add
  isAt : command.IsAt p
  operands : ∃ rest, command.operands = .value (.number delta) :: rest

variable {command : Command} {p : List String} {delta n : Number}

theorem AddsAt.onRoot_eq (h : command.AddsAt p delta) (path : Path) (root : Json) :
    command.onRoot path root = path.add (.value (.number delta)) root := by
  obtain ⟨rest, hoperands⟩ := h.operands
  unfold Command.operands at hoperands
  rw [onRoot, h.verb, hoperands]

/-- The number at the path gives way to the sum, if there is one; nothing else stands against it. -/
theorem AddsAt.onState_cases (h : command.AddsAt p delta) {rootKey : String} {members : List (String × Json)}
    (hget : (Json.object members).get? (rootKey :: p) = some (.number n)) :
    (n.add? delta = none ∧ (command.onState rootKey (.object members)).status ≠ .applied) ∨
    ∃ sum new, n.add? delta = some sum ∧ command.onState rootKey (.object members) = ⟨.object new, .applied⟩ ∧
      (Json.object new).get? (rootKey :: p) = some (.number sum) := by
  obtain ⟨path, hpath, rfl⟩ := h.isAt
  obtain ⟨root, hroot, hget⟩ := Option.bind_eq_some_iff.1 hget
  rw [onState_object hpath, rootTree_of_get? hroot, h.onRoot_eq, Path.add_of_get? hget]
  cases hsum : n.add? delta with
  | none => exact .inl ⟨rfl, nofun⟩
  | some sum =>
    obtain ⟨root', -, heffect⟩ := Path.write_of_get? hget (.number sum)
    have hread := Path.get?_write_of_get? hget (.number sum)
    rw [heffect] at hread
    refine .inr ⟨sum, Members.put rootKey root' members, rfl, by simp only [heffect], ?_⟩
    rw [Json.get?, Json.child?, Members.get?_put_self]
    exact hread

end Command

namespace Run

variable {rootKey : String} {p : List String}

/-- The increments of integers, all applied, leave their sum. -/
theorem ofCommands_of_addsAt {commands : List Command} {deltas : List Int}
    (hcommands : List.Forall₂ (fun command d => ∃ fits : FitsSigned d, command.AddsAt p (.int d fits.fitsWord))
      commands deltas) :
    ∀ {x : Int} {members : List (String × Json)} (hx : FitsSigned x),
      (Json.object members).get? (rootKey :: p) = some (.number (.int x hx.fitsWord)) →
      (∀ k ≤ deltas.length, FitsSigned (x + (deltas.take k).sum)) →
      (ofCommands rootKey commands (.object members)).reports = commands.map (⟨·, .applied⟩) ∧
      ∃ fits, (ofCommands rootKey commands (.object members)).state.get? (rootKey :: p) =
        some (.number (.int (x + deltas.sum) fits)) := by
  induction hcommands with
  | nil =>
    intro x members hx hget _
    exact ⟨rfl, by simpa using hx.fitsWord, by simpa [ofCommands] using hget⟩
  | @cons command d commands deltas hcommand _ ih =>
    intro x members hx hget hsums
    -- the first partial sum is where the rest of the run begins
    obtain ⟨fits, hadds⟩ := hcommand
    have hnext : FitsSigned (x + d) := by simpa using hsums 1 (by simp)
    have hsum : (Number.int x hx.fitsWord).add? (.int d fits.fitsWord) = some (.int (x + d) hnext.fitsWord) :=
      Number.add?_int_eq_int_iff.2 ⟨rfl, hx, fits, hnext⟩
    rcases hadds.onState_cases hget with ⟨hnone, -⟩ | ⟨sum, new, hsum', hstate, hnew⟩
    · rw [hsum] at hnone
      cases hnone
    · obtain rfl : sum = .int (x + d) hnext.fitsWord := Option.some_inj.1 (hsum'.symm.trans hsum)
      have hlater : ∀ k ≤ deltas.length, FitsSigned (x + d + (deltas.take k).sum) := by
        intro k hk
        simpa [add_assoc] using hsums (k + 1) (Nat.succ_le_succ hk)
      obtain ⟨hreports, hget⟩ := ih hnext hnew hlater
      simp only [ofCommands, hstate, List.map_cons, List.sum_cons, ← add_assoc]
      exact ⟨congrArg _ hreports, hget⟩

/-- Increments that keep a counter within 64 bits with a sign are all applied, and the counter is then exactly
their sum with what it was; and an addition of two integers leaves an integer just where their sum is one
within these 64 bits and so are both, and then this sum. -/
theorem after_increments (rootKey : String) (p : List String) (members : List (String × Json)) :
    (∀ (x : Int) (hx : FitsSigned x) (commands : List Command) (deltas : List Int),
      (Json.object members).get? (rootKey :: p) = some (.number (.int x hx.fitsWord)) →
      List.Forall₂ (fun command d => ∃ fits : FitsSigned d, command.AddsAt p (.int d fits.fitsWord)) commands deltas →
      (∀ k ≤ deltas.length, FitsSigned (x + (deltas.take k).sum)) →
      (ofCommands rootKey commands (.object members)).reports = commands.map (⟨·, .applied⟩) ∧
      ∃ fits, (after rootKey commands (.object members)).get? (rootKey :: p) =
        some (.number (.int (x + deltas.sum) fits))) ∧
    ∀ (command : Command) (i j : Int) (hi : FitsWord i) (hj : FitsWord j),
      (Json.object members).get? (rootKey :: p) = some (.number (.int i hi)) → command.AddsAt p (.int j hj) →
      (command.onState rootKey (.object members)).status = .applied →
      ∀ (s : Int) (hs : FitsWord s),
        (command.onState rootKey (.object members)).tree.get? (rootKey :: p) = some (.number (.int s hs)) ↔
          s = i + j ∧ FitsSigned i ∧ FitsSigned j ∧ FitsSigned s := by
  constructor
  · intro x hx commands deltas hget hcommands hsums
    obtain ⟨hreports, hfinal⟩ := ofCommands_of_addsAt hcommands hx hget hsums
    rw [after_of_applied hreports]
    exact ⟨hreports, hfinal⟩
  · intro command i j hi hj hget hadds happlied s hs
    rcases hadds.onState_cases hget with ⟨-, hidle⟩ | ⟨sum, new, hsum, hstate, hnew⟩
    · exact absurd happlied hidle
    · rw [hstate, hnew, Option.some_inj, Json.number.injEq, ← @Number.add?_int_eq_int_iff i j s hi hj hs, hsum,
        Option.some_inj]

/-- A counter comes to the greatest such integer again after a decrement; and where one more is added to it, no
integer is left. -/
theorem after_increments_greatest :
    let commands : List Command := [⟨.add, ["n.hp", "7"]⟩, ⟨.add, ["'n.hp'", "-20"]⟩, ⟨.add, ["n.hp", "20"]⟩]
    let before (n : Number) : List (String × Json) := [("s", .object [("n", .object [("hp", .number n)])])]
    let first := Json.object (before (.int 0x7ffffffffffffff8 (by decide)))
    let greatest := Json.object (before (.int 0x7fffffffffffffff (by decide)))
    (ofCommands "s" commands first).reports = commands.map (⟨·, .applied⟩) ∧
      (∃ fits, (after "s" commands first).get? ["s", "n", "hp"] = some (.number (.int 0x7fffffffffffffff fits))) ∧
      ((⟨.add, ["n.hp", "1"]⟩ : Command).onState "s" greatest).status = .applied ∧
      ∀ s hs, ((⟨.add, ["n.hp", "1"]⟩ : Command).onState "s" greatest).tree.get? ["s", "n", "hp"] ≠
        some (.number (.int s hs)) := by
  intro commands before first greatest
  have hseven : (⟨.add, ["n.hp", "7"]⟩ : Command).AddsAt ["n", "hp"] (.int 7 (by decide)) :=
    ⟨rfl, ⟨⟨"n.hp", ["n", "hp"], by decide⟩, by decide +kernel, rfl⟩, [], by decide +kernel⟩
  have hback : (⟨.add, ["'n.hp'", "-20"]⟩ : Command).AddsAt ["n", "hp"] (.int (-20) (by decide)) :=
    ⟨rfl, ⟨⟨"n.hp", ["n", "hp"], by decide⟩, by decide +kernel, rfl⟩, [], by decide +kernel⟩
  have hforth : (⟨.add, ["n.hp", "20"]⟩ : Command).AddsAt ["n", "hp"] (.int 20 (by decide)) :=
    ⟨rfl, ⟨⟨"n.hp", ["n", "hp"], by decide⟩, by decide +kernel, rfl⟩, [], by decide +kernel⟩
  have hone : (⟨.add, ["n.hp", "1"]⟩ : Command).AddsAt ["n", "hp"] (.int 1 (by decide)) :=
    ⟨rfl, ⟨⟨"n.hp", ["n", "hp"], by decide⟩, by decide +kernel, rfl⟩, [], by decide +kernel⟩
  have happlied : ((⟨.add, ["n.hp", "1"]⟩ : Command).onState "s" greatest).status = .applied := by decide +kernel
  obtain ⟨hreports, hafter⟩ := (after_increments "s" ["n", "hp"] (before (.int 0x7ffffffffffffff8 (by decide)))).1
    0x7ffffffffffffff8 (by decide) commands [7, -20, 20] rfl
    (.cons ⟨by decide, hseven⟩ (.cons ⟨by decide, hback⟩ (.cons ⟨by decide, hforth⟩ .nil))) (by decide)
  have hlast := (after_increments "s" ["n", "hp"] (before (.int 0x7fffffffffffffff (by decide)))).2
    _ 0x7fffffffffffffff 1 (by decide) (by decide) rfl hone happlied
  refine ⟨hreports, hafter, happlied, ?_⟩
  intro s hs hget
  obtain ⟨rfl, -, -, hsum⟩ := (hlast s hs).1 hget
  exact absurd hsum (by decide)

end Run

end StateScript
