/-
What a failed write leaves. A write that an array refuses which stood there before leaves the tree as
it was. Every other failed write breaks off: on a front of its path, where no container stood, it has
made an array for the index that comes next, and the index is too far in an empty array. It leaves what
a write of the empty array at this front alone leaves.

A container that a write makes is empty, so the next segment either is refused there or makes a
container again. This carries the induction along the path: the write goes on in a container that stood
there, or in one that it has made and in which nothing can refuse a segment but the first.
-/
import StateScript.Execution
import StateScript.Proofs.Tree.Lens

namespace StateScript

namespace Json

/-- A write along the front and the key leaves an empty array at the front, made for the key, which is
an index too far from its start. -/
structure BreaksOff (root : Json) (front : List String) (key : String) (index : Nat) (left : Json) : Prop where
  behind : front ≠ []
  vacant : ∀ node, root.get? front = some node → node.isContainer = false
  isIndex : arrayIndex? key = some index
  tooFar : maxGap ≤ index
  leaves : root.write front (array []) = ⟨left, none⟩

/-! ## What a write goes on in -/

theorem refusal?_empty {key : String} {index : Nat} (hi : arrayIndex? key = some index) (hfar : maxGap ≤ index) :
    (array []).refusal? key = some (.tooFar index) := by
  rw [refusal?, hi]
  simp only [List.length_nil, Nat.zero_add, hfar, if_true]

/-- Nothing stands in an empty container that could refuse a later segment. -/
theorem refusal?_of_refuses_emptyFor {key : String} {rest : List String} {error : WriteError}
    (h : (emptyFor key).Refuses (key :: rest) error) : (emptyFor key).refusal? key = some error := by
  rcases h.of_cons with h | ⟨child, hc, -⟩
  · exact h
  · rw [child?_emptyFor] at hc
    cases hc

/-- What a write goes on in depends on the next segment alone. -/
theorem readied_append (node : Json) (next : String) (front rest : List String) :
    node.readied ((next :: front) ++ rest) = node.readied (next :: front) := rfl

/-- The write goes on in a container that stands under the segment, or in an empty one that it makes. -/
theorem readied_cases (node : Json) (key next : String) :
    (∃ child, node.child? key = some child ∧ child.isContainer = true ∧
      ∀ rest, ((node.child? key).getD null).readied (next :: rest) = child) ∨
    ((∀ child, node.child? key = some child → child.isContainer = false) ∧
      ∀ rest, ((node.child? key).getD null).readied (next :: rest) = emptyFor next) := by
  cases hc : node.child? key with
  | none =>
    refine .inr ⟨?_, fun _ => rfl⟩
    rintro child ⟨⟩
  | some child =>
    cases hcontainer : child.isContainer with
    | true => exact .inl ⟨child, rfl, hcontainer, fun _ => readied_of_isContainer hcontainer _⟩
    | false =>
      refine .inr ⟨?_, fun rest => ?_⟩
      · rintro other ⟨⟩
        exact hcontainer
      · rw [Option.getD_some, readied, hcontainer]
        rfl

/-! ## Breaking off -/

/-- A write that breaks off below a segment breaks off behind it. -/
theorem BreaksOff.cons {node left : Json} {key next segment : String} {front : List String} {index : Nat}
    (hr : node.refusal? key = none)
    (h : (((node.child? key).getD null).readied (next :: front)).BreaksOff (next :: front) segment index left) :
    node.BreaksOff (key :: next :: front) segment index (node.withChild key left) where
  behind := List.cons_ne_nil _ _
  vacant := by
    intro value hvalue
    obtain ⟨child, hc, hvalue⟩ := Option.bind_eq_some_iff.1 hvalue
    refine h.vacant value ?_
    rw [hc, Option.getD_some, readied_of_get? hvalue]
    exact hvalue
  isIndex := h.isIndex
  tooFar := h.tooFar
  leaves := by rw [write_cons hr, h.leaves]

/-- The array is made right under a segment. -/
theorem BreaksOff.of_key {node : Json} {key segment : String} {index : Nat} (hr : node.refusal? key = none)
    (hvacant : ∀ child, node.child? key = some child → child.isContainer = false)
    (hi : arrayIndex? segment = some index) (hfar : maxGap ≤ index) :
    node.BreaksOff [key] segment index (node.withChild key (array [])) where
  behind := List.cons_ne_nil _ _
  vacant := by
    intro value hvalue
    obtain ⟨child, hc, hvalue⟩ := Option.bind_eq_some_iff.1 hvalue
    obtain rfl := Option.some.inj hvalue
    exact hvacant child hc
  isIndex := hi
  tooFar := hfar
  leaves := by
    rw [write_cons hr]
    rfl

/-- A failed write that no array refused which stood there breaks off. -/
theorem exists_breaksOff {value : Json} {error : WriteError} : ∀ {path : List String} {node left : Json},
    node.write path value = ⟨left, some error⟩ → ¬ node.Refuses path error →
    ∃ front key rest index, path = front ++ key :: rest ∧ error = .tooFar index ∧
      node.BreaksOff front key index left
  | [], _, _, h, _ => by cases h
  | key :: rest, node, left, h, hrefuses => by
    have hr : node.refusal? key = none := by
      rw [Option.eq_none_iff_forall_ne_some]
      intro other hother
      rw [write, hother] at h
      cases h
      exact hrefuses (refuses_of_refusal? hother rest)
    rw [write_cons hr] at h
    obtain ⟨rfl, herror⟩ := Written.mk.inj h
    rcases rest with _ | ⟨next, rest⟩
    · cases herror
    -- what the write goes on in refuses the next segment only if it has just been made
    generalize hbelow : ((node.child? key).getD null).readied (next :: rest) = below at herror ⊢
    have hsteps : below.write (next :: rest) value = ⟨(below.write (next :: rest) value).tree, some error⟩ := by
      rw [← herror]
    by_cases hb : below.Refuses (next :: rest) error
    · rcases readied_cases node key next with ⟨child, hc, -, hchild⟩ | ⟨hvacant, hmade⟩
      · rw [hchild] at hbelow
        exact absurd (.cons hc (hbelow ▸ hb)) hrefuses
      · rw [hmade] at hbelow
        subst hbelow
        obtain ⟨index, hi, hfar, rfl⟩ := refusal?_emptyFor_eq_some (refusal?_of_refuses_emptyFor hb)
        refine ⟨[key], next, rest, index, rfl, rfl, ?_⟩
        rw [write_of_refuses value hb, emptyFor_of_isIndex hi]
        exact .of_key hr hvacant hi hfar
    · obtain ⟨front, segment, more, index, hpath, rfl, h⟩ := exists_breaksOff hsteps hb
      rcases front with _ | ⟨first, front⟩
      · exact absurd rfl h.behind
      obtain ⟨rfl, rfl⟩ := List.cons.inj hpath
      exact ⟨key :: next :: front, segment, more, index, rfl, rfl, .cons hr (hbelow ▸ h)⟩

/-- A write that breaks off fails, whatever the rest of its path and its value are. -/
theorem BreaksOff.write_eq {key : String} {index : Nat} (rest : List String) (value : Json) :
    ∀ {front : List String} {node left : Json}, node.BreaksOff front key index left →
      node.write (front ++ key :: rest) value = ⟨left, some (.tooFar index)⟩
  | [], _, _, h => absurd rfl h.behind
  | [first], node, left, h => by
    have hr : node.refusal? first = none := (error?_write_cons (by rw [h.leaves])).1
    have hleft := h.leaves
    rw [write_cons hr] at hleft
    obtain ⟨rfl, -⟩ := Written.mk.inj hleft
    have hmade : ((node.child? first).getD null).readied (key :: rest) = array [] := by
      rcases readied_cases node first key with ⟨child, hc, hcontainer, -⟩ | ⟨-, hmade⟩
      · have hvacant := h.vacant child (by rw [get?, hc]; rfl)
        rw [hcontainer] at hvacant
        cases hvacant
      · rw [hmade, emptyFor_of_isIndex h.isIndex]
    show node.write (first :: key :: rest) value = _
    have hrefused := refuses_of_refusal? (refusal?_empty h.isIndex h.tooFar) rest
    rw [write_cons hr, hmade, write_of_refuses value hrefused]
    rfl
  | first :: next :: front, node, left, h => by
    obtain ⟨hr, herror⟩ := error?_write_cons (by rw [h.leaves])
    have hleft := h.leaves
    rw [write_cons hr] at hleft
    obtain ⟨rfl, -⟩ := Written.mk.inj hleft
    -- below the first segment the same write breaks off, in a container that stands there or is made
    have hbelow : (((node.child? first).getD null).readied (next :: front)).BreaksOff (next :: front) key index
        ((((node.child? first).getD null).readied (next :: front)).write (next :: front) (array [])).tree := by
      refine ⟨List.cons_ne_nil _ _, ?_, h.isIndex, h.tooFar, by rw [← herror]⟩
      intro value hvalue
      rcases readied_cases node first next with ⟨child, hc, -, hchild⟩ | ⟨-, hmade⟩
      · refine h.vacant value ?_
        rw [get?, hc, Option.bind_some, ← hchild front, hvalue]
      · rw [hmade, get?, child?_emptyFor] at hvalue
        cases hvalue
    show node.write (first :: (next :: front ++ key :: rest)) value = _
    rw [write_cons hr, readied_append, hbelow.write_eq rest value]

/-- What a failed write leaves, and when a write fails so. -/
theorem write_eq_failed_iff {root value left : Json} {path : List String} {error : WriteError} :
    root.write path value = ⟨left, some error⟩ ↔
      left = root ∧ root.Refuses path error ∨
      ∃ front key rest index, path = front ++ key :: rest ∧ error = .tooFar index ∧
        root.BreaksOff front key index left := by
  constructor
  · intro h
    by_cases hr : root.Refuses path error
    · rw [write_of_refuses value hr] at h
      exact .inl ⟨(Written.mk.inj h).1.symm, hr⟩
    · exact .inr (exists_breaksOff h hr)
  · rintro (⟨rfl, hr⟩ | ⟨front, key, rest, index, rfl, rfl, h⟩)
    · exact write_of_refuses value hr
    · exact h.write_eq rest value

end Json

namespace Path

theorem exists_of_write_failed {path : Path} {value root left : Json} {error : CommandError}
    (h : path.write value root = ⟨left, .failed error⟩) :
    (∃ segment, error = .pathConflict path.text segment ∧
      root.write path.segments value = ⟨left, some (.notAnIndex segment)⟩) ∨
    ∃ index, error = .indexOutOfRange path.text index ∧
      root.write path.segments value = ⟨left, some (.tooFar index)⟩ := by
  rw [write] at h
  generalize root.write path.segments value = written at h ⊢
  obtain ⟨tree, cause⟩ := written
  rcases cause with _ | (segment | index) <;> cases h
  · exact .inl ⟨segment, rfl, rfl⟩
  · exact .inr ⟨index, rfl, rfl⟩

/-- A failed write leaves the tree as it was, refused by an array that stood there; or it breaks off for
an index out of range, and what it leaves is the tree with an empty array at a front of its path. A
conflict leaves the tree in every case. -/
theorem write_failed {path : Path} {value root left : Json} {error : CommandError}
    (h : path.write value root = ⟨left, .failed error⟩) :
    (left = root ∧ (∃ cause, root.Refuses path.segments cause) ∨
      ∃ front key rest index, path.segments = front ++ key :: rest ∧
        error = .indexOutOfRange path.text index ∧ root.BreaksOff front key index left) ∧
    ∀ text segment, error = .pathConflict text segment → left = root := by
  rcases exists_of_write_failed h with ⟨segment, rfl, hwrite⟩ | ⟨index, rfl, hwrite⟩
  · rcases Json.write_eq_failed_iff.1 hwrite with ⟨rfl, hr⟩ | ⟨front, key, rest, index, -, hcause, -⟩
    · exact ⟨.inl ⟨rfl, _, hr⟩, fun _ _ _ => rfl⟩
    · cases hcause
  · refine ⟨?_, fun _ _ hconflict => by cases hconflict⟩
    rcases Json.write_eq_failed_iff.1 hwrite with ⟨rfl, hr⟩ | ⟨front, key, rest, far, hpath, hcause, hbreaks⟩
    · exact .inl ⟨rfl, _, hr⟩
    · cases hcause
      exact .inr ⟨front, key, rest, index, hpath, rfl, hbreaks⟩

/-- In place of a string comes an array of two items for `[1]`, the second an array for `[5000]`, where the
write breaks off. -/
theorem write_failed_behind_replaced_scalar :
    let path : Path := ⟨"a[1][5000].x", ["a", "1", "5000", "x"], by decide⟩
    let root : Json := .object [("a", .string "s"), ("b", .null)]
    let left : Json := .object [("a", .array [.null, .array []]), ("b", .null)]
    path.write (.bool true) root = ⟨left, .failed (.indexOutOfRange "a[1][5000].x" 5000)⟩ ∧
      ∃ front key rest, path.segments = front ++ key :: rest ∧ root.BreaksOff front key 5000 left := by
  intro path root left
  have hwrite : path.write (.bool true) root = ⟨left, .failed (.indexOutOfRange "a[1][5000].x" 5000)⟩ := rfl
  refine ⟨hwrite, ?_⟩
  rcases (write_failed hwrite).1 with ⟨hleft, -⟩ | ⟨front, key, rest, index, hpath, herror, hbreaks⟩
  · simp [left, root] at hleft
  · cases herror
    exact ⟨front, key, rest, hpath, hbreaks⟩

end Path

end StateScript
