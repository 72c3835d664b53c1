/-
Writes that are refused. A write that fails leaves the tree as it was just when the array that refused
it stood there before; otherwise the array is one that the write made on its way, and the tree keeps it.
What a write makes fits the segment that comes next, so in such an array only the index can be refused,
for being too far.
-/
import StateScript.Tree

namespace StateScript.Json

/-- An array on the way of the path refuses a segment of it. -/
def Refuses (root : Json) (path : List String) (error : WriteError) : Prop :=
  ∃ front key rest node, path = front ++ key :: rest ∧ root.get? front = some node ∧
    node.refusal? key = some error

theorem refuses_of_refusal? {root : Json} {key : String} {error : WriteError} (h : root.refusal? key = some error)
    (rest : List String) : root.Refuses (key :: rest) error :=
  ⟨[], key, rest, root, rfl, rfl, h⟩

theorem Refuses.cons {node child : Json} {key : String} {path : List String} {error : WriteError}
    (hc : node.child? key = some child) (h : child.Refuses path error) : node.Refuses (key :: path) error := by
  obtain ⟨front, k, rest, n, rfl, hn, he⟩ := h
  exact ⟨key :: front, k, rest, n, rfl, by rw [get?, hc, Option.bind_some, hn], he⟩

/-- The first segment is refused, or there is a child that refuses the rest. -/
theorem Refuses.of_cons {node : Json} {key : String} {path : List String} {error : WriteError}
    (h : node.Refuses (key :: path) error) :
    node.refusal? key = some error ∨ ∃ child, node.child? key = some child ∧ child.Refuses path error := by
  obtain ⟨front, k, rest, n, hp, hn, he⟩ := h
  cases front with
  | nil =>
    obtain ⟨rfl, rfl⟩ := List.cons.inj hp
    cases hn
    exact .inl he
  | cons _ front =>
    obtain ⟨rfl, rfl⟩ := List.cons.inj hp
    obtain ⟨child, hc, hn⟩ := Option.bind_eq_some_iff.1 hn
    exact .inr ⟨child, hc, front, k, rest, n, rfl, hn, he⟩

/-- Only a container refuses anything. -/
theorem isContainer_of_refuses {node : Json} {path : List String} {error : WriteError}
    (h : node.Refuses path error) : node.isContainer = true := by
  obtain ⟨front, key, rest, n, rfl, hn, he⟩ := h
  cases node with
  | array items => rfl
  | object members => rfl
  | _ =>
    cases front with
    | nil => cases hn; cases he
    | cons _ _ => cases hn

/-! ## Refused where it stood -/

/-- A write refused by an array that stands there changes nothing. -/
theorem write_of_refuses (value : Json) : ∀ {node : Json} {path : List String} {error : WriteError},
    node.Refuses path error → node.write path value = ⟨node, some error⟩
  | _, [], _, ⟨front, _, _, _, hp, _, _⟩ => by cases front <;> cases hp
  | node, key :: rest, error, h => by
    rw [write]
    rcases h.of_cons with he | ⟨child, hc, h⟩
    · rw [he]
    · rw [refusal?_of_child? hc, hc, Option.getD_some, readied_of_isContainer (isContainer_of_refuses h)]
      simp only [write_of_refuses value h, withChild_of_child? hc]

/-! ## Refused in what it made -/

/-- What is left of a write into a container is a container. -/
theorem isContainer_tree_write {node : Json} (h : node.isContainer = true) (key : String) (rest : List String)
    (value : Json) : (node.write (key :: rest) value).tree.isContainer = true := by
  rw [write]
  split
  · exact h
  · exact isContainer_withChild _ _ _

/-- A write that fails and changes nothing was refused by an array that stood there. -/
theorem refuses_of_write_eq {value : Json} : ∀ {node : Json} {path : List String} {error : WriteError},
    node.write path value = ⟨node, some error⟩ → node.Refuses path error
  | _, [], _, h => by cases h
  | node, key :: rest, error, h => by
    rw [write] at h
    split at h
    · next hr => cases h; exact refuses_of_refusal? hr rest
    · next hr =>
      obtain ⟨htree, herror⟩ := Written.mk.inj h
      -- the node is unchanged, so what was written back under the segment is a child that was there
      have hback := child?_withChild_self hr (((node.child? key).getD null).readied rest |>.write rest value).tree
      rw [htree] at hback
      obtain ⟨child, hc⟩ : ∃ child, node.child? key = some child := ⟨_, hback⟩
      rw [hc, Option.getD_some] at hback herror
      have htree : child = ((child.readied rest).write rest value).tree := Option.some.inj hback
      cases rest with
      | nil => cases herror
      | cons next rest =>
        have hcontainer : child.isContainer = true := by
          rw [htree]
          exact isContainer_tree_write (isContainer_readied_cons child next rest) next rest value
        rw [readied_of_isContainer hcontainer] at htree herror
        exact .cons hc (refuses_of_write_eq (by rw [← herror]; exact congrArg (Written.mk · _) htree.symm))

theorem child?_emptyFor (key segment : String) : (emptyFor key).child? segment = none := by
  unfold emptyFor
  split
  · cases h : arrayIndex? segment <;> simp [child?, h]
  · rfl

theorem emptyFor_of_isIndex {key : String} {index : Nat} (h : arrayIndex? key = some index) :
    emptyFor key = array [] := by
  rw [emptyFor, h]
  rfl

/-- An empty container for a segment takes it, unless the segment is an index that is too far. -/
theorem refusal?_emptyFor_eq_some {key : String} {error : WriteError}
    (h : (emptyFor key).refusal? key = some error) :
    ∃ index, arrayIndex? key = some index ∧ maxGap ≤ index ∧ error = .tooFar index := by
  cases hi : arrayIndex? key with
  | none =>
    rw [emptyFor, hi] at h
    cases h
  | some index =>
    rw [emptyFor_of_isIndex hi, refusal?, hi] at h
    simp only [List.length_nil, Nat.zero_add] at h
    split at h
    · next hfar =>
      cases h
      exact ⟨index, rfl, hfar, rfl⟩
    · cases h

/-- In a tree that it makes itself a write meets no segment that its array cannot take as an index. -/
theorem error?_write_emptyFor (value : Json) (segment : String) : ∀ (key : String) (rest : List String),
    ((emptyFor key).write (key :: rest) value).error? ≠ some (.notAnIndex segment)
  | key, rest, h => by
    rw [write] at h
    split at h
    · next error he =>
      cases h
      obtain ⟨_, -, -, htooFar⟩ := refusal?_emptyFor_eq_some he
      cases htooFar
    · rw [child?_emptyFor, Option.getD_none] at h
      cases rest with
      | nil => cases h
      | cons next rest => exact error?_write_emptyFor value segment next rest h

/-- A segment that is no index can only be refused by an array that stood there. -/
theorem refuses_of_notAnIndex {value : Json} {segment : String} : ∀ {node : Json} {path : List String},
    (node.write path value).error? = some (.notAnIndex segment) → node.Refuses path (.notAnIndex segment)
  | _, [], h => by cases h
  | node, key :: rest, h => by
    rw [write] at h
    split at h
    · next hr => cases h; exact refuses_of_refusal? hr rest
    · cases rest with
      | nil => cases h
      | cons next rest =>
        by_cases hcontainer : ((node.child? key).getD null).isContainer = true
        · rw [readied_of_isContainer hcontainer] at h
          cases hc : node.child? key with
          | none => rw [hc] at hcontainer; cases hcontainer
          | some child => exact .cons hc (refuses_of_notAnIndex (by simpa only [hc, Option.getD_some] using h))
        · simp only [readied, hcontainer] at h
          exact absurd h (error?_write_emptyFor value segment next rest)

/-! ## What a failed write leads to -/

/-- Where a write failed, its path leads to nothing afterwards. -/
theorem get?_tree_write_of_error {value : Json} : ∀ {node : Json} {path : List String} {error : WriteError},
    (node.write path value).error? = some error → (node.write path value).tree.get? path = none
  | _, [], _, h => by cases h
  | node, key :: rest, error, h => by
    rw [write] at h ⊢
    split at h
    · next hr =>
      cases hc : node.child? key with
      | none => simp only [get?, hc, Option.bind_none]
      | some child => rw [refusal?_of_child? hc] at hr; cases hr
    · next hr =>
      rw [get?, child?_withChild_self hr, Option.bind_some]
      exact get?_tree_write_of_error h

/-- A path that leads somewhere can be written. -/
theorem error?_write_of_get? {value w : Json} : ∀ {node : Json} {path : List String},
    node.get? path = some w → (node.write path value).error? = none
  | _, [], _ => rfl
  | node, key :: rest, h => by
    obtain ⟨child, hc, hw⟩ := Option.bind_eq_some_iff.1 h
    rw [write, refusal?_of_child? hc, hc, Option.getD_some]
    cases rest with
    | nil => rfl
    | cons next rest =>
      rw [readied_of_isContainer (isContainer_of_get?_cons hw)]
      exact error?_write_of_get? hw

theorem erase?_of_get?_eq_none : ∀ {node : Json} {path : List String},
    node.get? path = none → node.erase? path = none
  | _, [], h => by cases h
  | node, [key], h => by
    cases hc : node.child? key with
    | none => rw [erase?, hc, Option.map_none]
    | some child => simp only [get?, hc, Option.bind_some] at h; cases h
  | node, key :: next :: rest, h => by
    cases hc : node.child? key with
    | none => rw [erase?, hc, Option.bind_none]; simp
    | some child =>
      rw [get?, hc, Option.bind_some] at h
      rw [erase?, hc, Option.bind_some, erase?_of_get?_eq_none h, Option.map_none]
      simp

end StateScript.Json
