/-
Paths that part from each other. Two segments are apart when they are different and are no spellings
of one array index, and two paths diverge when they have segments apart at one place of both. Taking
away, changing or writing at a path leaves every value where it was that a diverging path leads to,
also where a write replaces scalars, fills up an array or is refused on its way.

In a node two segments lead to one slot or to two. Of the first, any change under the one is the same
change under the other; of the second, a change under the one leaves what the other leads to. The
proofs go down both paths at once and decide this at each node.
-/
import StateScript.Tree

namespace StateScript

/-- Segments that name different members and do not denote one index. -/
def Apart (a b : String) : Prop := a ≠ b ∧ ∀ i, arrayIndex? a = some i → arrayIndex? b ≠ some i

instance (a b : String) : Decidable (Apart a b) := inferInstanceAs (Decidable (_ ∧ _))

/-- The paths have segments apart at one place inside both. -/
def Diverges (p q : List String) : Prop := ∃ segments ∈ p.zip q, Apart segments.1 segments.2

instance (p q : List String) : Decidable (Diverges p q) := inferInstanceAs (Decidable (∃ _ ∈ _, _))

theorem not_diverges_nil_left (q : List String) : ¬ Diverges [] q := by
  rintro ⟨_, h, -⟩
  cases h

theorem not_diverges_nil_right (p : List String) : ¬ Diverges p [] := by
  rintro ⟨_, h, -⟩
  rw [List.zip_nil_right] at h
  cases h

theorem diverges_cons_iff {a b : String} {p q : List String} :
    Diverges (a :: p) (b :: q) ↔ Apart a b ∨ Diverges p q := by
  unfold Diverges
  rw [List.zip_cons_cons]
  constructor
  · rintro ⟨s, hs, h⟩
    rcases List.mem_cons.1 hs with rfl | hs
    · exact .inl h
    · exact .inr ⟨s, hs, h⟩
  · rintro (h | ⟨s, hs, h⟩)
    · exact ⟨(a, b), List.mem_cons_self, h⟩
    · exact ⟨s, List.mem_cons_of_mem _ hs, h⟩

theorem Apart.symm {a b : String} (h : Apart a b) : Apart b a := ⟨h.1.symm, fun i hb ha => h.2 i ha hb⟩

theorem Diverges.symm : ∀ {p q : List String}, Diverges p q → Diverges q p
  | [], _, h => absurd h (not_diverges_nil_left _)
  | _ :: _, [], h => absurd h (not_diverges_nil_right _)
  | _ :: _, _ :: _, h => diverges_cons_iff.2 ((diverges_cons_iff.1 h).imp Apart.symm Diverges.symm)

/-- Along keys, paths diverge as soon as neither begins with the other. -/
theorem diverges_of_not_isPrefix : ∀ {p q : List String}, (∀ segment ∈ p, arrayIndex? segment = none) →
    ¬ p <+: q → ¬ q <+: p → Diverges p q
  | [], _, _, h, _ => absurd List.nil_prefix h
  | _ :: _, [], _, _, h => absurd List.nil_prefix h
  | a :: p, b :: q, hkeys, hpq, hqp => by
    obtain ⟨ha, hkeys⟩ := List.forall_mem_cons.1 hkeys
    rw [diverges_cons_iff]
    by_cases hab : a = b
    · subst hab
      rw [List.cons_prefix_cons] at hpq hqp
      exact .inr (diverges_of_not_isPrefix hkeys (fun h => hpq ⟨rfl, h⟩) fun h => hqp ⟨rfl, h⟩)
    · exact .inl ⟨hab, fun i hi => by rw [ha] at hi; cases hi⟩

namespace Json

/-! ## Two segments in one node -/

/-- The segments lead to one slot of the node: they denote one index, or are one key. -/
def SameSlot (node : Json) (a b : String) : Prop :=
  match node with
  | array _ => ∃ i, arrayIndex? a = some i ∧ arrayIndex? b = some i
  | _ => a = b

theorem not_sameSlot_of_apart {a b : String} (h : Apart a b) (node : Json) : ¬ node.SameSlot a b := by
  cases node with
  | array items => rintro ⟨i, ha, hb⟩; exact h.2 i ha hb
  | _ => exact h.1

theorem child?_of_sameSlot {node : Json} {a b : String} (h : node.SameSlot a b) :
    node.child? a = node.child? b := by
  cases node with
  | array items => obtain ⟨i, ha, hb⟩ := h; simp only [child?, ha, hb]
  | _ => cases h; rfl

theorem withChild_of_sameSlot {node : Json} {a b : String} (h : node.SameSlot a b) (child : Json) :
    node.withChild a child = node.withChild b child := by
  cases node with
  | array items => obtain ⟨i, ha, hb⟩ := h; simp only [withChild, ha, hb]
  | _ => cases h; rfl

/-- A change under one slot leaves what another slot holds. -/
theorem child?_withChild_of_not_sameSlot {node child : Json} {a b : String} (h : ¬ node.SameSlot a b)
    (hb : node.child? b = some child) (new : Json) : (node.withChild a new).child? b = some child := by
  cases node with
  | array items =>
    obtain ⟨j, hj, hget⟩ := Option.bind_eq_some_iff.1 hb
    cases hi : arrayIndex? a with
    | none => simpa only [withChild, hi] using hb
    | some i =>
      have hne : i ≠ j := fun e => h ⟨j, e ▸ hi, hj⟩
      obtain ⟨hlt, he⟩ := List.getElem?_eq_some_iff.1 hget
      simp only [withChild, child?, hi, hj, Option.bind_some]
      rw [List.getElem?_set_ne hne, List.rightpad, List.getElem?_append_left hlt, hget]
  | object members =>
    have hne : b ≠ a := fun e => h e.symm
    simp only [withChild, child?] at hb ⊢
    rw [Members.get?_put_of_ne hne, hb]
  | _ => cases hb

/-- Taking away from one slot leaves what another slot holds. -/
theorem child?_withoutChild_of_not_sameSlot {node child : Json} {a b : String} (h : ¬ node.SameSlot a b)
    (hb : node.child? b = some child) : (node.withoutChild a).child? b = some child := by
  cases node with
  | array items =>
    obtain ⟨j, hj, hget⟩ := Option.bind_eq_some_iff.1 hb
    cases hi : arrayIndex? a with
    | none => simpa only [withoutChild, hi] using hb
    | some i =>
      have hne : i ≠ j := fun e => h ⟨j, e ▸ hi, hj⟩
      simp only [withoutChild, child?, hi, hj, Option.bind_some]
      rw [List.getElem?_set_ne hne, hget]
  | object members =>
    have hne : b ≠ a := fun e => h e.symm
    simp only [withoutChild, child?] at hb ⊢
    rw [Members.get?_erase_of_ne hne, hb]
  | _ => cases hb

/-- A changed child leaves what a path behind another segment leads to; behind the same one the path
must lead there in the new child. -/
theorem get?_withChild {node child new w : Json} {a b : String} {q : List String}
    (hb : node.child? b = some child) (hw : child.get? q = some w)
    (hnew : node.SameSlot a b → new.get? q = some w) : (node.withChild a new).get? (b :: q) = some w := by
  by_cases hs : node.SameSlot a b
  · rw [withChild_of_sameSlot hs, get?, child?_withChild_self (refusal?_of_child? hb), Option.bind_some]
    exact hnew hs
  · rw [get?, child?_withChild_of_not_sameSlot hs hb, Option.bind_some]
    exact hw

/-! ## Along two paths -/

/-- A write goes on into a node as it is, if a diverging path leads on from there. -/
theorem readied_of_diverges {node w : Json} {p q : List String} (hd : Diverges p q)
    (h : node.get? q = some w) : node.readied p = node := by
  match p, q with
  | [], _ => rfl
  | _ :: _, [] => exact absurd hd (not_diverges_nil_right _)
  | _ :: _, _ :: _ => exact readied_of_isContainer (isContainer_of_get?_cons h) _

theorem get?_write_of_diverges (value : Json) : ∀ {node w : Json} {p q : List String},
    Diverges p q → node.get? q = some w → (node.write p value).tree.get? q = some w
  | _, _, [], _, hd, _ => absurd hd (not_diverges_nil_left _)
  | _, _, _ :: _, [], hd, _ => absurd hd (not_diverges_nil_right _)
  | node, w, a :: p, b :: q, hd, h => by
    rw [write]
    split
    · exact h
    · obtain ⟨child, hb, hw⟩ := Option.bind_eq_some_iff.1 h
      refine get?_withChild hb hw fun hs => ?_
      have hd' := (diverges_cons_iff.1 hd).resolve_left fun hab => not_sameSlot_of_apart hab node hs
      rw [child?_of_sameSlot hs, hb, Option.getD_some, readied_of_diverges hd' hw]
      exact get?_write_of_diverges value hd' hw

theorem get?_update?_of_diverges (f : Json → Json) : ∀ {node new w : Json} {p q : List String},
    Diverges p q → node.get? q = some w → node.update? f p = some new → new.get? q = some w
  | _, _, _, [], _, hd, _, _ => absurd hd (not_diverges_nil_left _)
  | _, _, _, _ :: _, [], hd, _, _ => absurd hd (not_diverges_nil_right _)
  | node, new, w, a :: p, b :: q, hd, h, hnew => by
    obtain ⟨old, ha, hnew⟩ := Option.bind_eq_some_iff.1 hnew
    obtain ⟨changed, hchanged, rfl⟩ := Option.map_eq_some_iff.1 hnew
    obtain ⟨child, hb, hw⟩ := Option.bind_eq_some_iff.1 h
    refine get?_withChild hb hw fun hs => ?_
    have hd' := (diverges_cons_iff.1 hd).resolve_left fun hab => not_sameSlot_of_apart hab node hs
    have hold : child = old := Option.some.inj (hb ▸ child?_of_sameSlot hs ▸ ha)
    exact get?_update?_of_diverges f hd' hw (hold ▸ hchanged)

theorem get?_erase?_of_diverges : ∀ {node new w : Json} {p q : List String},
    Diverges p q → node.get? q = some w → node.erase? p = some new → new.get? q = some w
  | _, _, _, [], _, hd, _, _ => absurd hd (not_diverges_nil_left _)
  | _, _, _, _ :: _, [], hd, _, _ => absurd hd (not_diverges_nil_right _)
  | node, new, w, [a], b :: q, hd, h, hnew => by
    obtain ⟨_, _, rfl⟩ := Option.map_eq_some_iff.1 hnew
    obtain ⟨child, hb, hw⟩ := Option.bind_eq_some_iff.1 h
    have hab := (diverges_cons_iff.1 hd).resolve_right (not_diverges_nil_left _)
    rw [get?, child?_withoutChild_of_not_sameSlot (not_sameSlot_of_apart hab node) hb, Option.bind_some]
    exact hw
  | node, new, w, a :: c :: p, b :: q, hd, h, hnew => by
    obtain ⟨old, ha, hnew⟩ := Option.bind_eq_some_iff.1 hnew
    obtain ⟨changed, hchanged, rfl⟩ := Option.map_eq_some_iff.1 hnew
    obtain ⟨child, hb, hw⟩ := Option.bind_eq_some_iff.1 h
    refine get?_withChild hb hw fun hs => ?_
    have hd' := (diverges_cons_iff.1 hd).resolve_left fun hab => not_sameSlot_of_apart hab node hs
    have hold : child = old := Option.some.inj (hb ▸ child?_of_sameSlot hs ▸ ha)
    exact get?_erase?_of_diverges hd' hw (hold ▸ hchanged)

end Json

end StateScript
