/-
Edits made once more. Edits that all succeed on a tree leave one on which they change nothing more when they
are made again, member order aside, even though some may fail this time: one that has gone through a container
which a later edit replaced now meets the other kind of container.

At each place the last edit of this place itself settles what is there. Where no edit is at the place itself,
all go on into one container: into the one that stands there, or into the one that the first write makes,
since removals before it find nothing. This container admits every edit again, for an array goes by then as far
as any of them reaches, and below it the same holds, place by place.
-/
import StateScript.Proofs.Tree.Edits

namespace StateScript

/-! ## Starting over -/

/-- Each item does nothing, in the state and in fresh ones, or it takes the state for a fresh one. Then a list
of them does nothing, or it takes the state for a fresh one. -/
theorem foldl_eq_or_fresh {σ α : Type} {step : σ → α → σ} {ok : σ → α → Prop} {state : σ} {fresh : σ → Prop} :
    ∀ {items : List α},
    (∀ item ∈ items,
      (step state item = state ∧ ok state item ∧ ∀ start, fresh start → step start item = start ∧ ok start item) ∨
      ∃ start, fresh start ∧ step state item = step start item ∧ (ok state item ↔ ok start item)) →
    items.foldl step state = state ∨
      ∃ start, fresh start ∧ items.foldl step state = items.foldl step start ∧
        (Throughout step ok state items ↔ Throughout step ok start items)
  | [], _ => .inl rfl
  | item :: rest, h => by
    obtain ⟨hitem, hrest⟩ := List.forall_mem_cons.1 h
    rcases hitem with ⟨hidle, hok, hfresh⟩ | ⟨start, hstart, hstep, hok⟩
    · rcases foldl_eq_or_fresh hrest with hfold | ⟨start, hstart, hfold, hiff⟩
      · refine .inl ?_
        rw [List.foldl_cons, hidle, hfold]
      · obtain ⟨hidle', hok'⟩ := hfresh start hstart
        refine .inr ⟨start, hstart, ?_, ?_⟩
        · rw [List.foldl_cons, List.foldl_cons, hidle, hidle', hfold]
        · rw [Throughout, Throughout, hidle, hidle', hiff]
          exact and_congr_left fun _ => iff_of_true hok hok'
    · refine .inr ⟨start, hstart, ?_, ?_⟩
      · rw [List.foldl_cons, List.foldl_cons, hstep]
      · rw [Throughout, Throughout, hstep, hok]

namespace Json

variable {node : Json} {edits : List Edit} {vacant slot : Option Json}

/-- Where nothing is inside, a removal has nothing to take away. -/
theorem edited_of_undefined {edit : Edit} (hoperand : edit.operand = .undefined)
    (hbare : ∀ key, node.child? key = none) : node.edited edit = node ∧ node.Takes edit := by
  obtain ⟨path, operand⟩ := edit
  cases hoperand
  refine ⟨?_, nofun⟩
  cases path with
  | nil => rfl
  | cons key rest => rw [edited, erase?_of_child?_eq_none (hbare key), Option.getD_none]

theorem child?_of_not_container (hc : node.isContainer = false) (key : String) : node.child? key = none := by
  cases node <;> first | rfl | cases hc

/-- On a tree that is no container edits do nothing, or they take it for an empty object. -/
theorem foldl_edited_of_not_container (hc : node.isContainer = false) (hpath : ∀ e ∈ edits, e.path ≠ []) :
    edits.foldl edited node = node ∨
      ∃ start, start = object [] ∧ edits.foldl edited node = edits.foldl edited start ∧
        (Throughout edited Takes node edits ↔ Throughout edited Takes start edits) := by
  refine foldl_eq_or_fresh fun e he => ?_
  cases hoperand : e.operand with
  | undefined =>
    obtain ⟨hidle, htakes⟩ := edited_of_undefined hoperand (child?_of_not_container hc)
    refine .inl ⟨hidle, htakes, ?_⟩
    rintro start rfl
    exact edited_of_undefined hoperand fun _ => rfl
  | value json => exact .inr ⟨object [], rfl, edited_of_not_container hc (hpath e he) ⟨json, hoperand⟩⟩

/-- In a slot without a container edits do nothing, or they take it for one with an empty container. -/
theorem foldl_onSlot_of_not_container (hslot : ∀ node, slot = some node → node.isContainer = false)
    (hpath : ∀ e ∈ edits, e.path ≠ []) :
    edits.foldl (Edit.onSlot vacant) slot = slot ∨
      ∃ start, (∃ key, start = some (emptyFor key)) ∧
        edits.foldl (Edit.onSlot vacant) slot = edits.foldl (Edit.onSlot vacant) start ∧
        (Throughout (Edit.onSlot vacant) Edit.FitsSlot slot edits ↔
          Throughout (Edit.onSlot vacant) Edit.FitsSlot start edits) := by
  refine foldl_eq_or_fresh fun e he => ?_
  obtain ⟨key, rest, hp⟩ := List.exists_cons_of_ne_nil (hpath e he)
  cases hoperand : e.operand with
  | undefined =>
    have hidle : ∀ {slot : Option Json}, (∀ node, slot = some node → ∀ key, node.child? key = none) →
        e.onSlot vacant slot = slot ∧ e.FitsSlot slot := by
      intro slot hbare
      refine ⟨?_, fun json hjson => by rw [hoperand] at hjson; cases hjson⟩
      rw [Edit.onSlot, hp, hoperand]
      cases slot with
      | none => rfl
      | some node => exact congrArg some (edited_of_undefined hoperand (hbare node rfl)).1
    obtain ⟨hstay, hfits⟩ := hidle fun node h => child?_of_not_container (hslot node h)
    refine .inl ⟨hstay, hfits, ?_⟩
    rintro start ⟨other, rfl⟩
    refine hidle ?_
    rintro node ⟨⟩
    exact child?_emptyFor other
  | value json => exact .inr ⟨some (emptyFor key), ⟨key, rfl⟩, onSlot_of_vacant hslot ⟨json, hoperand⟩ hp vacant⟩

/-! ## Into a container again -/

theorem refusal?_of_reach {key : String} {place : Place} (h : node.place? key = some place)
    (hreach : place.reach ≤ node.span) : node.refusal? key = none := by
  cases node with
  | array items =>
    obtain ⟨i, hi, rfl⟩ := Option.map_eq_some_iff.1 h
    have hlt : i + 1 ≤ items.length := hreach
    have hnear : ¬ items.length + maxGap ≤ i := by omega
    simp only [refusal?, hi, hnear, if_false]
  | _ => rfl

/-- A container admits all edits that reach no further than it goes. -/
theorem throughout_admits_of_reach : ∀ {edits : List Edit} {node : Json}, node.isContainer = true →
    (∀ e ∈ edits, e.path ≠ []) →
    (∀ e ∈ edits, e.IsWrite → ∃ key rest place, e.path = key :: rest ∧ node.place? key = some place) →
    (∀ e ∈ edits, e.reach node ≤ node.span) → Throughout edited Admits node edits
  | [], _, _, _, _, _ => trivial
  | edit :: rest, node, hc, hpath, hplaces, hreach => by
    obtain ⟨hedit, hpath⟩ := List.forall_mem_cons.1 hpath
    obtain ⟨hplace, hplaces⟩ := List.forall_mem_cons.1 hplaces
    obtain ⟨hfar, hreach⟩ := List.forall_mem_cons.1 hreach
    have ha : node.Admits edit := by
      intro json key path hoperand hp
      obtain ⟨key', path', place, hp', hplace⟩ := hplace ⟨json, hoperand⟩
      rw [hp] at hp'
      cases hp'
      refine refusal?_of_reach hplace ?_
      simpa only [Edit.reach, hp, hoperand, hplace, Option.elim_some] using hfar
    have hface := face_edited hc hedit ha
    have hspan : node.span ≤ (node.edited edit).span := by
      rw [span_edited hc hedit ha]
      exact Nat.le_max_left _ _
    refine ⟨ha, throughout_admits_of_reach ((isContainer_congr hface).trans hc) hpath ?_ ?_⟩
    · rw [place?_congr hface]
      exact hplaces
    · rw [reach_congr hface]
      exact fun e he => (hreach e he).trans hspan

/-- What edits have left of a container admits them again. -/
theorem throughout_admits_again (hc : node.isContainer = true) (hpath : ∀ e ∈ edits, e.path ≠ [])
    (ha : Throughout edited Admits node edits) : Throughout edited Admits (edits.foldl edited node) edits := by
  have hface := face_foldl_edited hc hpath ha
  refine throughout_admits_of_reach ((isContainer_congr hface).trans hc) hpath ?_ ?_
  · rw [place?_congr hface]
    exact exists_place?_of_throughout hc hpath ha
  · rw [reach_congr hface]
    exact ((span_foldl_edited_le_iff _ hc hpath ha).1 (Nat.le_refl _)).2

/-- Edits leave a container as it is, made again, if those of each place leave its slot. -/
theorem alike_again (hc : node.isContainer = true) (hpath : ∀ e ∈ edits, e.path ≠ [])
    (ha : Throughout edited Admits node edits)
    (h : ∀ place, Option.Rel Alike
      ((edits.filterMap (Edit.below? node place)).foldl (Edit.onSlot node.vacant)
        ((edits.filterMap (Edit.below? node place)).foldl (Edit.onSlot node.vacant) (node.held place)))
      ((edits.filterMap (Edit.below? node place)).foldl (Edit.onSlot node.vacant) (node.held place))) :
    (edits.foldl edited (edits.foldl edited node)).Alike (edits.foldl edited node) := by
  have hface := face_foldl_edited hc hpath ha
  have hc' := (isContainer_congr hface).trans hc
  have ha' := throughout_admits_again hc hpath ha
  have hreach := ((span_foldl_edited_le_iff _ hc hpath ha).1 (Nat.le_refl _)).2
  refine alike_of_held (face_foldl_edited hc' hpath ha') ?_ fun place => ?_
  · refine eq_of_forall_ge_iff fun length => ?_
    rw [span_foldl_edited_le_iff length hc' hpath ha', reach_congr hface]
    exact and_iff_left_of_imp fun hlength e he => (hreach e he).trans hlength
  · rw [held_foldl_edited place hc' hpath ha', below?_congr hface, vacant_congr hface,
      held_foldl_edited place hc hpath ha]
    exact h place

/-! ## Again -/

/-- An edit at the place itself makes it the same whatever was there before. -/
theorem foldl_onSlot_of_path_nil : ∀ {edits : List Edit}, (∃ e ∈ edits, e.path = []) → ∀ slot other,
    edits.foldl (Edit.onSlot vacant) slot = edits.foldl (Edit.onSlot vacant) other
  | edit :: rest, ⟨e, he, hp⟩, slot, other => by
    rw [List.foldl_cons, List.foldl_cons]
    rcases List.mem_cons.1 he with rfl | he
    · have hsame : e.onSlot vacant slot = e.onSlot vacant other := by
        rw [Edit.onSlot, Edit.onSlot, hp]
        cases e.operand <;> rfl
      rw [hsame]
    · exact foldl_onSlot_of_path_nil ⟨e, he, hp⟩ _ _

/-- Edits that all succeed in a slot leave what they leave there once more. -/
theorem rel_alike_again : ∀ (n : Nat) {edits : List Edit} {vacant slot : Option Json},
    (∀ e ∈ edits, e.path.length < n) → Throughout (Edit.onSlot vacant) Edit.FitsSlot slot edits →
    Option.Rel Alike (edits.foldl (Edit.onSlot vacant) (edits.foldl (Edit.onSlot vacant) slot))
      (edits.foldl (Edit.onSlot vacant) slot) := by
  intro n
  induction n with
  | zero =>
    intro edits vacant slot hlength _
    rw [Edit.eq_nil_of_length_lt_zero hlength]
    exact rel_alike_refl _
  | succ n ih =>
    intro edits vacant slot hlength hfit
    by_cases hnil : ∃ e ∈ edits, e.path = []
    · rw [foldl_onSlot_of_path_nil hnil _ slot]
      exact rel_alike_refl _
    have hpath : ∀ e ∈ edits, e.path ≠ [] := fun e he hp => hnil ⟨e, he, hp⟩
    have hcontainer : ∀ node : Json, node.isContainer = true →
        Throughout (Edit.onSlot vacant) Edit.FitsSlot (some node) edits →
        Option.Rel Alike (edits.foldl (Edit.onSlot vacant) (edits.foldl (Edit.onSlot vacant) (some node)))
          (edits.foldl (Edit.onSlot vacant) (some node)) := by
      intro node hc hfit
      obtain ⟨ha, hslots⟩ := (throughout_takes_iff hc hpath).1 ((throughout_onSlot_some vacant hc hpath).1 hfit)
      have hc' := (isContainer_congr (face_foldl_edited hc hpath ha)).trans hc
      rw [foldl_onSlot_some vacant hc hpath ha,
        foldl_onSlot_some vacant hc' hpath (throughout_admits_again hc hpath ha)]
      refine .some (alike_again hc hpath ha fun place => ?_)
      exact ih (Edit.length_lt_of_mem_filterMap hlength) (hslots place)
    rcases container_or_vacant slot with ⟨node, rfl, hc⟩ | hvacant
    · exact hcontainer node hc hfit
    · rcases foldl_onSlot_of_not_container hvacant hpath with hfold | ⟨_, ⟨key, rfl⟩, hfold, hiff⟩
      · rw [hfold, hfold]
        exact rel_alike_refl _
      · rw [hfold]
        exact hcontainer _ (isContainer_emptyFor key) (hiff.1 hfit)

/-- Edits that all succeed on a tree leave what they leave of it once more. -/
theorem foldl_edited_again (hpath : ∀ e ∈ edits, e.path ≠ []) (htakes : Throughout edited Takes node edits) :
    (edits.foldl edited (edits.foldl edited node)).Alike (edits.foldl edited node) := by
  obtain ⟨n, hn⟩ := Edit.exists_length_lt edits
  have hlength : ∀ e ∈ edits, e.path.length < n + 1 := fun e he => Nat.lt_succ_of_lt (hn e he)
  have hcontainer : ∀ {node : Json}, node.isContainer = true → Throughout edited Takes node edits →
      (edits.foldl edited (edits.foldl edited node)).Alike (edits.foldl edited node) := by
    intro node hc htakes
    obtain ⟨ha, hslots⟩ := (throughout_takes_iff hc hpath).1 htakes
    exact alike_again hc hpath ha fun place =>
      rel_alike_again n (Edit.length_lt_of_mem_filterMap hlength) (hslots place)
  cases hc : node.isContainer with
  | true => exact hcontainer hc htakes
  | false =>
    rcases foldl_edited_of_not_container hc hpath with hfold | ⟨_, rfl, hfold, hiff⟩
    · rw [hfold, hfold]
    · rw [hfold]
      exact hcontainer rfl (hiff.1 htakes)

end Json

end StateScript
