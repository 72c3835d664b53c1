/-
Lists of edits. What a list of edits leaves at a place of a container is what the edits of this place alone
make of its slot, each with the rest of its path, whatever the others do and in whatever order they come in
between. The kind of the container stays, and an array goes as far as the farthest of its writes.

An edit that fails below a place has still been admitted by the container, so that what is said here of
admitted edits is said of edits that fail further down as well.
-/
import StateScript.Proofs.Tree.Edit
import Mathlib.Algebra.Order.BigOperators.Group.List
import Mathlib.Algebra.Order.Group.Nat

namespace StateScript

/-- Each item of the list passes where the fold comes to it. -/
def Throughout {σ α : Type} (step : σ → α → σ) (ok : σ → α → Prop) : σ → List α → Prop
  | _, [] => True
  | state, item :: rest => ok state item ∧ Throughout step ok (step state item) rest

/-- The paths of edits are shorter than some number. -/
theorem Edit.exists_length_lt (edits : List Edit) : ∃ n, ∀ e ∈ edits, e.path.length < n :=
  ⟨(edits.map fun e => e.path.length).sum + 1, fun _ he =>
    Nat.lt_succ_of_le (List.le_sum_of_mem (List.mem_map_of_mem (f := fun e : Edit => e.path.length) he))⟩

theorem Edit.eq_nil_of_length_lt_zero {edits : List Edit} (h : ∀ e ∈ edits, e.path.length < 0) : edits = [] :=
  List.eq_nil_iff_forall_not_mem.2 fun e he => Nat.not_lt_zero _ (h e he)

/-- Behind a place what is left of the paths is shorter. -/
theorem Edit.length_lt_of_mem_filterMap {n : Nat} {edits : List Edit} (h : ∀ e ∈ edits, e.path.length < n + 1)
    {node : Json} {place : Place} : ∀ e ∈ edits.filterMap (below? node place), e.path.length < n := by
  intro below hbelow
  obtain ⟨e, he, hb⟩ := List.mem_filterMap.1 hbelow
  obtain ⟨key, hpath, -, -⟩ := Json.exists_of_below? hb
  have hlength := h e he
  rw [hpath, List.length_cons] at hlength
  omega

namespace Json

/-! ## In a container -/

theorem face_foldl_edited : ∀ {edits : List Edit} {node : Json}, node.isContainer = true →
    (∀ edit ∈ edits, edit.path ≠ []) → Throughout edited Admits node edits →
    (edits.foldl edited node).face = node.face
  | [], _, _, _, _ => rfl
  | edit :: rest, node, hc, hpath, ha => by
    obtain ⟨hedit, hrest⟩ := List.forall_mem_cons.1 hpath
    have hface := face_edited hc hedit ha.1
    rw [← hface]
    exact face_foldl_edited ((isContainer_congr hface).trans hc) hrest ha.2

/-- What edits leave at a place is what the edits of this place make of the slot. -/
theorem held_foldl_edited (place : Place) : ∀ {edits : List Edit} {node : Json}, node.isContainer = true →
    (∀ edit ∈ edits, edit.path ≠ []) → Throughout edited Admits node edits →
    (edits.foldl edited node).held place =
      (edits.filterMap (Edit.below? node place)).foldl (Edit.onSlot node.vacant) (node.held place)
  | [], _, _, _, _ => rfl
  | edit :: rest, node, hc, hpath, ha => by
    obtain ⟨hedit, hrest⟩ := List.forall_mem_cons.1 hpath
    have hface := face_edited hc hedit ha.1
    have ih := held_foldl_edited place ((isContainer_congr hface).trans hc) hrest ha.2
    rw [List.foldl_cons, ih, below?_congr hface, vacant_congr hface, held_edited hc hedit ha.1, List.filterMap_cons]
    cases edit.below? node place <;> rfl

/-- How far an array goes after edits. -/
theorem span_foldl_edited_le_iff (length : Nat) : ∀ {edits : List Edit} {node : Json}, node.isContainer = true →
    (∀ edit ∈ edits, edit.path ≠ []) → Throughout edited Admits node edits →
    ((edits.foldl edited node).span ≤ length ↔ node.span ≤ length ∧ ∀ edit ∈ edits, edit.reach node ≤ length)
  | [], _, _, _, _ => by simp
  | edit :: rest, node, hc, hpath, ha => by
    obtain ⟨hedit, hrest⟩ := List.forall_mem_cons.1 hpath
    have hface := face_edited hc hedit ha.1
    have ih := span_foldl_edited_le_iff length ((isContainer_congr hface).trans hc) hrest ha.2
    rw [List.foldl_cons, ih, span_edited hc hedit ha.1, reach_congr hface, Nat.max_le, List.forall_mem_cons, and_assoc]

/-- Edits all succeed in a container if that admits them all and those of each place succeed in its slot. -/
theorem throughout_takes_iff : ∀ {edits : List Edit} {node : Json}, node.isContainer = true →
    (∀ edit ∈ edits, edit.path ≠ []) →
    (Throughout edited Takes node edits ↔ Throughout edited Admits node edits ∧
      ∀ place, Throughout (Edit.onSlot node.vacant) Edit.FitsSlot (node.held place)
        (edits.filterMap (Edit.below? node place)))
  | [], _, _, _ => by simp [Throughout]
  | edit :: rest, node, hc, hpath => by
    obtain ⟨hedit, hrest⟩ := List.forall_mem_cons.1 hpath
    rw [Throughout, Throughout, takes_iff hc hedit, and_assoc, and_assoc]
    refine and_congr_right fun ha => ?_
    have hface := face_edited hc hedit ha
    rw [throughout_takes_iff ((isContainer_congr hface).trans hc) hrest, below?_congr hface, vacant_congr hface,
      and_left_comm]
    refine and_congr_right fun _ => ?_
    rw [← forall_and]
    refine forall_congr' fun place => ?_
    rw [held_edited hc hedit ha, List.filterMap_cons]
    cases hb : edit.below? node place with
    | none => simp
    | some below => simp [Throughout]

/-- Where edits are admitted throughout, their first segments have places. -/
theorem exists_place?_of_throughout : ∀ {edits : List Edit} {node : Json}, node.isContainer = true →
    (∀ e ∈ edits, e.path ≠ []) → Throughout edited Admits node edits →
    ∀ e ∈ edits, e.IsWrite → ∃ key rest place, e.path = key :: rest ∧ node.place? key = some place
  | edit :: rest, node, hc, hpath, ha, e, he, hwrite => by
    obtain ⟨hedit, hrest⟩ := List.forall_mem_cons.1 hpath
    rcases List.mem_cons.1 he with rfl | he
    · obtain ⟨json, hjson⟩ := hwrite
      obtain ⟨key, path, hp⟩ := List.exists_cons_of_ne_nil hedit
      obtain ⟨place, hplace⟩ := place?_of_refusal? hc (ha.1 json key path hjson hp)
      exact ⟨key, path, place, hp, hplace⟩
    · have hface := face_edited hc hedit ha.1
      rw [← place?_congr hface]
      exact exists_place?_of_throughout ((isContainer_congr hface).trans hc) hrest ha.2 e he hwrite

theorem foldl_edited_of_scalar {node : Json} (hc : node.isContainer = false) {edit : Edit} (hpath : edit.path ≠ [])
    (hwrite : edit.IsWrite) (edits : List Edit) :
    (edit :: edits).foldl edited node = (edit :: edits).foldl edited (object []) ∧
      (Throughout edited Takes node (edit :: edits) ↔ Throughout edited Takes (object []) (edit :: edits)) := by
  obtain ⟨hstep, htakes⟩ := edited_of_not_container hc hpath hwrite
  rw [List.foldl_cons, List.foldl_cons, Throughout, Throughout, hstep, htakes]
  exact ⟨rfl, Iff.rfl⟩

/-! ## In a slot -/

theorem foldl_onSlot_some (vacant : Option Json) : ∀ {edits : List Edit} {node : Json}, node.isContainer = true →
    (∀ edit ∈ edits, edit.path ≠ []) → Throughout edited Admits node edits →
    edits.foldl (Edit.onSlot vacant) (some node) = some (edits.foldl edited node)
  | [], _, _, _, _ => rfl
  | edit :: rest, node, hc, hpath, ha => by
    obtain ⟨hedit, hrest⟩ := List.forall_mem_cons.1 hpath
    have hface := face_edited hc hedit ha.1
    rw [List.foldl_cons, (onSlot_some hc hedit vacant).1]
    exact foldl_onSlot_some vacant ((isContainer_congr hface).trans hc) hrest ha.2

theorem throughout_onSlot_some (vacant : Option Json) : ∀ {edits : List Edit} {node : Json}, node.isContainer = true →
    (∀ edit ∈ edits, edit.path ≠ []) →
    (Throughout (Edit.onSlot vacant) Edit.FitsSlot (some node) edits ↔ Throughout edited Takes node edits)
  | [], _, _, _ => Iff.rfl
  | edit :: rest, node, hc, hpath => by
    obtain ⟨hedit, hrest⟩ := List.forall_mem_cons.1 hpath
    obtain ⟨hstep, hfits⟩ := onSlot_some hc hedit vacant
    rw [Throughout, Throughout, hfits, hstep]
    refine and_congr_right fun htakes => ?_
    have hface := face_edited hc hedit ((takes_iff hc hedit).1 htakes).1
    exact throughout_onSlot_some vacant ((isContainer_congr hface).trans hc) hrest

theorem foldl_onSlot_of_vacant {slot : Option Json} (hslot : ∀ node, slot = some node → node.isContainer = false)
    {edit : Edit} (hwrite : edit.IsWrite) {key : String} {rest : List String} (hpath : edit.path = key :: rest)
    (vacant : Option Json) (edits : List Edit) :
    (edit :: edits).foldl (Edit.onSlot vacant) slot = (edit :: edits).foldl (Edit.onSlot vacant) (some (emptyFor key)) ∧
      (Throughout (Edit.onSlot vacant) Edit.FitsSlot slot (edit :: edits) ↔
        Throughout (Edit.onSlot vacant) Edit.FitsSlot (some (emptyFor key)) (edit :: edits)) := by
  obtain ⟨hstep, hfits⟩ := onSlot_of_vacant hslot hwrite hpath vacant
  rw [List.foldl_cons, List.foldl_cons, Throughout, Throughout, hstep, hfits]
  exact ⟨rfl, Iff.rfl⟩

end Json

end StateScript
