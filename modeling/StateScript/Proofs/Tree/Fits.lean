/-
How far a change of a tree can deepen it. Where a value is written, no more containers nest than on the way
there and in the value together, or in the tree before; what is taken away, or moved within its list, deepens
nothing; and an object never has a key twice, if none had in the tree and in what comes into it.
-/
import StateScript.Collection
import StateScript.Proofs.Json.Fits
import StateScript.Tree
import Mathlib.Data.List.InsertIdx

namespace StateScript.Json

variable {m n : Nat} {node child value : Json} {key : String} {items : List Json} {members : List (String × Json)}

/-! ## Containers -/

theorem fits_array_iff : (array items).Fits (n + 1) ↔ ∀ v ∈ items, v.Fits n := by
  constructor
  · intro h
    cases h with
    | scalar h => cases h
    | array h => exact h
  · exact .array

theorem fits_object_iff :
    (object members).Fits (n + 1) ↔ (Members.keys members).Nodup ∧ ∀ m ∈ members, m.2.Fits n := by
  constructor
  · intro h
    cases h with
    | scalar h => cases h
    | object hkeys h => exact ⟨hkeys, h⟩
  · rintro ⟨hkeys, h⟩
    exact .object hkeys h

theorem Fits.exists_of_isContainer (h : node.Fits n) (hnode : node.isContainer = true) : ∃ k, n = k + 1 := by
  cases h with
  | scalar h =>
    rw [h] at hnode
    cases hnode
  | array _ => exact ⟨_, rfl⟩
  | object _ _ => exact ⟨_, rfl⟩

theorem Fits.put (h : (Json.object members).Fits (n + 1)) (hvalue : value.Fits n) (key : String) :
    (Json.object (Members.put key value members)).Fits (n + 1) := by
  obtain ⟨hkeys, hmembers⟩ := fits_object_iff.1 h
  refine .object (Members.nodup_keys_put key value hkeys) ?_
  intro m hm
  rcases Members.mem_put hm with rfl | hm
  · exact hvalue
  · exact hmembers m hm

theorem Fits.erase (h : (Json.object members).Fits n) (key : String) :
    (Json.object (Members.erase key members)).Fits n := by
  obtain ⟨n, rfl⟩ := h.exists_of_isContainer rfl
  obtain ⟨hkeys, hmembers⟩ := fits_object_iff.1 h
  exact .object (Members.nodup_keys_erase key hkeys) fun m hm => hmembers m (List.mem_filter.1 hm).1

theorem fits_object_singleton (hvalue : value.Fits n) (key : String) : (object [(key, value)]).Fits (n + 1) :=
  .object (List.nodup_cons.2 ⟨List.not_mem_nil, List.nodup_nil⟩) (List.forall_mem_singleton.2 hvalue)

/-! ## One segment -/

theorem Fits.child? (h : node.Fits n) (hchild : node.child? key = some child) : ∃ k, n = k + 1 ∧ child.Fits k := by
  cases h with
  | @scalar node h n =>
    cases node with
    | array _ | object _ => cases h
    | _ => cases hchild
  | @array n items h =>
    obtain ⟨i, -, hi⟩ := Option.bind_eq_some_iff.1 hchild
    exact ⟨n, rfl, h child (List.mem_of_getElem? hi)⟩
  | @object n members hkeys h => exact ⟨n, rfl, h (key, child) (Members.mem_of_get? hchild)⟩

theorem Fits.withChild (h : node.Fits (n + 1)) (hchild : child.Fits n) (key : String) :
    (node.withChild key child).Fits (n + 1) := by
  cases node with
  | array items =>
    rw [Json.withChild]
    split
    · -- an item of the padded array is an old one, a null or the child
      refine .array ?_
      intro v hv
      rcases List.mem_or_eq_of_mem_set hv with hv | rfl
      · rcases List.mem_append.1 hv with hv | hv
        · exact fits_array_iff.1 h v hv
        · rw [(List.mem_replicate.1 hv).2]
          exact .null n
      · exact hchild
    · exact h
  | object members => exact h.put hchild key
  | _ => exact fits_object_singleton hchild key

theorem Fits.withoutChild (h : node.Fits n) (key : String) : (node.withoutChild key).Fits n := by
  cases node with
  | array items =>
    rw [Json.withoutChild]
    split
    · obtain ⟨n, rfl⟩ := h.exists_of_isContainer rfl
      refine .array ?_
      intro v hv
      rcases List.mem_or_eq_of_mem_set hv with hv | rfl
      · exact fits_array_iff.1 h v hv
      · exact .null n
    · exact h
  | object members => exact h.erase key
  | _ => exact h

theorem fits_emptyFor (key : String) (n : Nat) : (emptyFor key).Fits (n + 1) := by
  unfold emptyFor
  split
  · exact .array (List.forall_mem_nil _)
  · exact .object List.nodup_nil (List.forall_mem_nil _)

theorem Fits.readied (h : node.Fits n) {rest : List String} (hrest : rest.length ≤ n) : (node.readied rest).Fits n := by
  cases rest with
  | nil => exact h
  | cons key rest =>
    rw [Json.readied]
    split
    · exact h
    · obtain ⟨n, rfl⟩ := Nat.exists_eq_add_of_le' (Nat.one_le_of_lt hrest)
      exact fits_emptyFor key n

/-! ## Reading and changing -/

theorem Fits.get? (h : node.Fits n) {path : List String} (hget : node.get? path = some value) :
    ∃ k, n = path.length + k ∧ value.Fits k := by
  induction path generalizing node n with
  | nil =>
    cases hget
    exact ⟨n, (Nat.zero_add n).symm, h⟩
  | cons key rest ih =>
    obtain ⟨child, hchild, hget⟩ := Option.bind_eq_some_iff.1 hget
    obtain ⟨n, rfl, hfits⟩ := h.child? hchild
    obtain ⟨k, rfl, hvalue⟩ := ih hfits hget
    exact ⟨k, (Nat.succ_add _ k).symm, hvalue⟩

/-- A write makes containers for its segments alone. -/
theorem Fits.write (h : node.Fits n) (hvalue : value.Fits m) {path : List String} (hpath : path.length + m ≤ n) :
    (node.write path value).tree.Fits n := by
  induction path generalizing node n with
  | nil => exact hvalue.mono (by simpa using hpath)
  | cons key rest ih =>
    rw [Json.write]
    split
    · exact h
    · -- a write that stops further down has made no more containers than one that does not
      obtain ⟨n, rfl⟩ : ∃ k, n = k + 1 := Nat.exists_eq_add_of_le' (by rw [List.length_cons] at hpath; omega)
      have hrest : rest.length + m ≤ n := by rw [List.length_cons] at hpath; omega
      have hchild : ((node.child? key).getD .null).Fits n := by
        cases hchild : node.child? key with
        | none => exact .null n
        | some child =>
          obtain ⟨k, hk, hfits⟩ := h.child? hchild
          obtain rfl := Nat.succ.inj hk
          exact hfits
      exact h.withChild (ih (hchild.readied (Nat.le_of_add_right_le hrest)) hrest) key

theorem Fits.update? (h : node.Fits n) {f : Json → Json} {path : List String} {new : Json}
    (hf : ∀ k old, n = path.length + k → old.Fits k → (f old).Fits k) (hnew : node.update? f path = some new) :
    new.Fits n := by
  induction path generalizing node n new with
  | nil =>
    cases hnew
    exact hf n node (Nat.zero_add n).symm h
  | cons key rest ih =>
    obtain ⟨child, hchild, hnew⟩ := Option.bind_eq_some_iff.1 hnew
    obtain ⟨changed, hchanged, rfl⟩ := Option.map_eq_some_iff.1 hnew
    obtain ⟨n, rfl, hfits⟩ := h.child? hchild
    refine h.withChild (ih hfits ?_ hchanged) key
    rintro k old rfl
    exact hf k old (Nat.succ_add _ k).symm

theorem Fits.erase? : ∀ {path : List String} {n : Nat} {node new : Json}, node.Fits n → node.erase? path = some new →
    new.Fits n
  | [], _, _, _, _, hnew => by cases hnew
  | [key], _, _, _, h, hnew => by
    obtain ⟨-, -, rfl⟩ := Option.map_eq_some_iff.1 hnew
    exact h.withoutChild key
  | key :: next :: rest, _, _, _, h, hnew => by
    obtain ⟨child, hchild, hnew⟩ := Option.bind_eq_some_iff.1 hnew
    obtain ⟨changed, hchanged, rfl⟩ := Option.map_eq_some_iff.1 hnew
    obtain ⟨n, rfl, hfits⟩ := h.child? hchild
    exact h.withChild (hfits.erase? hchanged) key

/-! ## Collections -/

mutual

/-- Merged objects nest no deeper than the deeper of the two. -/
theorem Fits.mergedWith : ∀ {incoming : Json} {n : Nat} {earlier? : Option Json}, incoming.Fits n →
    (∀ earlier, earlier? = some earlier → earlier.Fits n) → (Json.mergedWith earlier? incoming).Fits n
  | .object incoming, n, earlier?, h, hearlier => by
    rw [Json.mergedWith.eq_def]
    dsimp only
    split
    · exact Fits.mergeMembers (hearlier _ rfl) h
    · exact h
  | .null, _, _, h, _ => h
  | .bool _, _, _, h, _ => h
  | .number _, _, _, h, _ => h
  | .string _, _, _, h, _ => h
  | .array _, _, _, h, _ => h
termination_by structural v => v

theorem Fits.mergeMembers : ∀ {incoming target : List (String × Json)} {n : Nat}, (Json.object target).Fits n →
    (Json.object incoming).Fits n → (Json.object (Json.mergeMembers target incoming)).Fits n
  | [], _, _, h, _ => h
  | (key, v) :: rest, target, n, h, hincoming => by
    obtain ⟨n, rfl⟩ := h.exists_of_isContainer rfl
    obtain ⟨hkeys, hmembers⟩ := fits_object_iff.1 hincoming
    obtain ⟨hv, hrest⟩ := List.forall_mem_cons.1 hmembers
    have hmerged : (Json.mergedWith (Members.get? key target) v).Fits n :=
      Fits.mergedWith hv fun earlier hearlier => (fits_object_iff.1 h).2 _ (Members.mem_of_get? hearlier)
    rw [Json.mergeMembers]
    exact Fits.mergeMembers (h.put hmerged key) (.object (List.nodup_cons.1 hkeys).2 hrest)
termination_by structural ms => ms

end

/-- A list in a collection of so many containers holds values of at least one and at most two fewer. -/
theorem Fits.onList (h : node.Fits n) {f : List Json → List Json}
    (hf : ∀ k items, n ≤ k + 2 → (∀ v ∈ items, v.Fits k) → ∀ v ∈ f items, v.Fits k) : (node.onList f).Fits n := by
  unfold Json.onList
  split
  · next items label =>
    -- a tuple: its list stands one container further down
    obtain ⟨n, rfl⟩ := h.exists_of_isContainer rfl
    have hparts := fits_array_iff.1 h
    have hlist := hparts _ List.mem_cons_self
    obtain ⟨n, rfl⟩ := hlist.exists_of_isContainer rfl
    refine .array (List.forall_mem_cons.2 ⟨?_, fun v hv => hparts v (List.mem_cons_of_mem _ hv)⟩)
    exact .array (hf n items (Nat.le_refl _) (fits_array_iff.1 hlist))
  · next items _ =>
    obtain ⟨n, rfl⟩ := h.exists_of_isContainer rfl
    exact .array (hf n items (Nat.le_succ _) (fits_array_iff.1 h))
  · exact h

theorem Fits.withoutEntry (h : node.Fits n) (operand : Operand) : (node.withoutEntry operand).Fits n := by
  have hlist : (node.onList (withoutItem operand)).Fits n := by
    refine h.onList ?_
    intro k items _ hitems v hv
    refine hitems v ?_
    unfold withoutItem at hv
    split at hv
    · exact List.mem_of_mem_eraseIdx hv
    · exact List.mem_of_mem_eraseP hv
  cases node with
  | object members => exact h.erase operand.keyText
  | _ => exact hlist

theorem fits_flattened {operand : Operand} (h : operand.toJson.Fits n) : ∀ v ∈ operand.flattened, v.Fits n := by
  unfold Operand.flattened
  split
  · next items =>
    obtain ⟨n, rfl⟩ := h.exists_of_isContainer rfl
    exact fun v hv => (fits_array_iff.1 h v hv).mono (Nat.le_succ n)
  · exact List.forall_mem_singleton.2 h

theorem fits_of_flattened {operand : Operand} (h : ∀ v ∈ operand.flattened, v.Fits n) :
    operand.toJson.Fits (n + 1) := by
  unfold Operand.flattened at h
  split at h
  · exact .array h
  · exact (h _ List.mem_cons_self).mono (Nat.le_succ n)

/-- A list of a tuple that an operand is added to has two containers about what comes in. -/
theorem Fits.extended (h : node.Fits n) {operand : Operand} (hitems : ∀ v ∈ operand.flattened, v.Fits m)
    (hn : m + 2 ≤ n) : (node.extended operand).Fits n := by
  have hlist : (node.onList (· ++ operand.flattened)).Fits n := by
    refine h.onList ?_
    intro k items hk hold v hv
    rcases List.mem_append.1 hv with hv | hv
    · exact hold v hv
    · exact (hitems v hv).mono (by omega)
  cases node with
  | object members =>
    unfold Json.extended
    dsimp only
    split
    · exact h.mergeMembers ((hitems _ List.mem_cons_self).mono (by omega))
    · exact h
  | _ => exact hlist

theorem Fits.withEntry? (h : node.Fits n) {entryKey entry : Operand} (hentry : entry.toJson.Fits m) (hn : m + 1 ≤ n)
    {new : Json} (hnew : Json.withEntry? entryKey entry node = some new) : new.Fits n := by
  cases node with
  | array items =>
    obtain ⟨place, -, rfl⟩ := Option.map_eq_some_iff.1 hnew
    obtain ⟨n, rfl⟩ := h.exists_of_isContainer rfl
    refine .array ?_
    intro v hv
    rcases List.eq_or_mem_of_mem_insertIdx hv with rfl | hv
    · exact hentry.mono (Nat.le_of_succ_le_succ hn)
    · exact fits_array_iff.1 h v hv
  | object members =>
    cases hnew
    obtain ⟨n, rfl⟩ := h.exists_of_isContainer rfl
    exact h.put (hentry.mono (Nat.le_of_succ_le_succ hn)) _
  | _ => cases hnew

end StateScript.Json
