/-
Merging as a union. The merged members are those of both objects: first the keys of the target in its order, then
the new ones of the incoming object in its order. A key of only one has its value there, and a key of both has the
merge of the two values if both are objects, and the incoming value otherwise. So it is wherever keys lead through
objects of both; and a second merge of the same object changes nothing.

What a key has afterwards hangs on what it has in the two objects, and on nothing else. So the second merge finds
under each incoming key what the first has left there; that it leaves this as it is goes by induction on the depth
of the incoming value, once for a value that meets itself and once for one that meets a merge with it.
-/
import StateScript.Json.Merge
import StateScript.Proofs.Json.Fits

namespace StateScript.Json

open Members (keys)

variable {n : Nat} {key : String} {value : Json} {target incoming : List (String × Json)}

/-! ## One key -/

theorem mergedWith_objects (target incoming : List (String × Json)) :
    mergedWith (some (object target)) (object incoming) = object (mergeMembers target incoming) := by
  rw [mergedWith]

/-- Anything but an object that meets an object stands as it came in. -/
theorem mergedWith_of_not_objects {earlier? : Option Json}
    (h : ∀ target incoming, ¬ (earlier? = some (object target) ∧ value = object incoming)) :
    mergedWith earlier? value = value := by
  cases value with
  | object incoming =>
    rw [mergedWith.eq_def]
    dsimp only
    split
    · next target => exact absurd ⟨rfl, rfl⟩ (h target incoming)
    · rfl
  | _ => rfl

theorem get?_mergeMembers_of_not_mem (h : key ∉ keys incoming) :
    Members.get? key (mergeMembers target incoming) = Members.get? key target := by
  induction incoming generalizing target with
  | nil => rfl
  | cons m rest ih =>
    obtain ⟨k, v⟩ := m
    obtain ⟨hk, hrest⟩ := List.ne_and_not_mem_of_not_mem_cons h
    rw [mergeMembers, ih hrest, Members.get?_put_of_ne hk]

theorem get?_mergeMembers_of_get? (hkeys : (keys incoming).Nodup) (h : Members.get? key incoming = some value) :
    Members.get? key (mergeMembers target incoming) = some (mergedWith (Members.get? key target) value) := by
  induction incoming generalizing target with
  | nil => cases h
  | cons m rest ih =>
    obtain ⟨k, v⟩ := m
    obtain ⟨hk, hrest⟩ := List.nodup_cons.1 hkeys
    rw [Members.get?] at h
    rw [mergeMembers]
    split at h
    · next heq =>
      -- the key does not come again, so what is put under it now stays
      subst heq
      cases h
      rw [get?_mergeMembers_of_not_mem hk, Members.get?_put_self]
    · next hne => rw [ih hrest h, Members.get?_put_of_ne (Ne.symm hne)]

theorem keys_mergeMembers (hkeys : (keys incoming).Nodup) :
    keys (mergeMembers target incoming) = keys target ++ (keys incoming).filter (· ∉ keys target) := by
  induction incoming generalizing target with
  | nil => exact (List.append_nil _).symm
  | cons m rest ih =>
    obtain ⟨k, v⟩ := m
    obtain ⟨hk, hrest⟩ := List.nodup_cons.1 hkeys
    rw [mergeMembers, ih hrest, Members.keys_put]
    show _ = _ ++ (k :: keys rest).filter _
    split
    · next hmem => rw [List.filter_cons_of_neg (by simpa using hmem)]
    · next hmem =>
      rw [List.filter_cons_of_pos (by simpa using hmem), List.append_assoc, List.singleton_append]
      congr 2
      refine List.filter_congr fun other hother => ?_
      have hne : other ≠ k := fun heq => hk (heq ▸ hother)
      simp only [List.mem_append, List.mem_singleton, hne, or_false]

/-! ## Merging again -/

/-- Members that are left as they are wherever an incoming one meets them are not changed by a merge. -/
theorem mergeMembers_of_absorbed
    (h : ∀ m ∈ incoming, Members.get? m.1 target = some (mergedWith (Members.get? m.1 target) m.2)) :
    mergeMembers target incoming = target := by
  induction incoming with
  | nil => rfl
  | cons m rest ih =>
    obtain ⟨hm, hrest⟩ := List.forall_mem_cons.1 h
    rw [mergeMembers, Members.put_of_get? hm, ih hrest]

theorem mergedWith_self (h : value.Fits n) : mergedWith (some value) value = value := by
  induction h with
  | @scalar v h _ => exact mergedWith_of_not_objects (by rintro _ _ ⟨-, rfl⟩; cases h)
  | array _ _ => rfl
  | @object _ members hkeys _ ih =>
    rw [mergedWith_objects, mergeMembers_of_absorbed]
    intro m hm
    rw [Members.get?_of_mem hkeys hm, ih m hm]

theorem mergedWith_mergedWith (h : value.Fits n) (earlier? : Option Json) :
    mergedWith (some (mergedWith earlier? value)) value = mergedWith earlier? value := by
  induction h generalizing earlier? with
  | @scalar v h n =>
    have hstands : mergedWith earlier? v = v := mergedWith_of_not_objects (by rintro _ _ ⟨-, rfl⟩; cases h)
    rw [hstands, mergedWith_self (.scalar h n)]
  | array _ _ => rfl
  | @object n members hkeys hmembers ih =>
    by_cases hearlier : ∃ earlier, earlier? = some (object earlier)
    · obtain ⟨earlier, rfl⟩ := hearlier
      rw [mergedWith_objects, mergedWith_objects, mergeMembers_of_absorbed]
      intro m hm
      rw [get?_mergeMembers_of_get? hkeys (Members.get?_of_mem hkeys hm), ih m hm]
    · have hstands : mergedWith earlier? (object members) = object members :=
        mergedWith_of_not_objects fun target _ h => hearlier ⟨target, h.1⟩
      rw [hstands, mergedWith_self (.object hkeys hmembers)]

/-! ## Along keys -/

/-- The members of the object that keys lead to, through objects alone. -/
def membersAt? : (path : List String) → (members : List (String × Json)) → Option (List (String × Json))
  | [], members => some members
  | key :: rest, members =>
    match Members.get? key members with
    | some (object below) => membersAt? rest below
    | _ => none

theorem membersAt?_cons_eq_some_iff {path : List String} {members found : List (String × Json)} :
    membersAt? (key :: path) members = some found ↔
      ∃ below, Members.get? key members = some (object below) ∧ membersAt? path below = some found := by
  rw [membersAt?]
  split
  · next below hbelow => simp only [hbelow, Option.some.injEq, object.injEq, exists_eq_left']
  · next hnone =>
    refine ⟨nofun, ?_⟩
    rintro ⟨below, hbelow, -⟩
    exact absurd hbelow (hnone below)

/-- The members are those of both objects, each with the value of the one that has it or a value made of the two. -/
structure IsUnion (target incoming union : List (String × Json)) : Prop where
  order : keys union = keys target ++ (keys incoming).filter (· ∉ keys target)
  ofTarget : ∀ key, key ∉ keys incoming → Members.get? key union = Members.get? key target
  ofIncoming : ∀ key, key ∉ keys target → Members.get? key union = Members.get? key incoming
  merged : ∀ key t s, Members.get? key target = some (object t) → Members.get? key incoming = some (object s) →
    Members.get? key union = some (object (mergeMembers t s))
  replaced : ∀ key v w, Members.get? key target = some v → Members.get? key incoming = some w →
    (∀ t s, ¬ (v = object t ∧ w = object s)) → Members.get? key union = some w

theorem isUnion_mergeMembers (hkeys : (keys incoming).Nodup) (target : List (String × Json)) :
    IsUnion target incoming (mergeMembers target incoming) where
  order := keys_mergeMembers hkeys
  ofTarget := fun _ h => get?_mergeMembers_of_not_mem h
  ofIncoming := by
    intro key h
    cases hincoming : Members.get? key incoming with
    | none => rw [get?_mergeMembers_of_not_mem (Members.get?_eq_none_iff.1 hincoming), Members.get?_eq_none_iff.2 h]
    | some w =>
      rw [get?_mergeMembers_of_get? hkeys hincoming, Members.get?_eq_none_iff.2 h, mergedWith_of_not_objects]
      rintro _ _ ⟨⟨⟩, -⟩
  merged := by
    intro key t s ht hs
    rw [get?_mergeMembers_of_get? hkeys hs, ht, mergedWith_objects]
  replaced := by
    intro key v w hv hw h
    rw [get?_mergeMembers_of_get? hkeys hw, hv, mergedWith_of_not_objects]
    rintro t s ⟨hvt, hws⟩
    exact h t s ⟨Option.some.inj hvt, hws⟩

/-- Where keys lead through objects of both, they lead to the merge of the two objects at their ends. -/
theorem membersAt?_mergeMembers {path : List String} {t s : List (String × Json)} (hincoming : (object incoming).Fits n)
    (ht : membersAt? path target = some t) (hs : membersAt? path incoming = some s) :
    membersAt? path (mergeMembers target incoming) = some (mergeMembers t s) ∧ (keys s).Nodup := by
  induction path generalizing target incoming n with
  | nil =>
    cases ht
    cases hs
    cases hincoming with
    | scalar h _ => cases h
    | object hkeys _ => exact ⟨rfl, hkeys⟩
  | cons key rest ih =>
    obtain ⟨below, hbelow, ht⟩ := membersAt?_cons_eq_some_iff.1 ht
    obtain ⟨more, hmore, hs⟩ := membersAt?_cons_eq_some_iff.1 hs
    cases hincoming with
    | scalar h _ => cases h
    | object hkeys hfits =>
      obtain ⟨hrest, hnodup⟩ := ih (hfits _ (Members.mem_of_get? hmore)) ht hs
      exact ⟨membersAt?_cons_eq_some_iff.2 ⟨_, (isUnion_mergeMembers hkeys target).merged key below more hbelow hmore,
        hrest⟩, hnodup⟩

/-- Of an object without a repeated key at any level, a merge makes the union at every level, and a second merge
changes nothing. -/
theorem mergeMembers_union (target incoming : List (String × Json))
    (hincoming : (object incoming).regular (fun _ => true) = true) :
    (∀ path t s, membersAt? path target = some t → membersAt? path incoming = some s →
      membersAt? path (mergeMembers target incoming) = some (mergeMembers t s) ∧
        IsUnion t s (mergeMembers t s)) ∧
    mergeMembers (mergeMembers target incoming) incoming = mergeMembers target incoming := by
  have hfits : (object incoming).Fits (object incoming).depth := fits_iff.2 ⟨hincoming, Nat.le_refl _⟩
  constructor
  · intro path t s ht hs
    obtain ⟨hat, hkeys⟩ := membersAt?_mergeMembers hfits ht hs
    exact ⟨hat, isUnion_mergeMembers hkeys t⟩
  · have hagain := mergedWith_mergedWith hfits (some (object target))
    rw [mergedWith_objects, mergedWith_objects] at hagain
    exact object.inj hagain

/-- Two objects meet under one key, a list and an object under another. -/
theorem mergeMembers_union_nested :
    let target := [("a", object [("x", null), ("y", bool true)]), ("b", array []), ("c", string "t")]
    let incoming := [("d", null), ("b", object []), ("a", object [("y", object []), ("z", bool false)])]
    let below := [("x", null), ("y", object []), ("z", bool false)]
    let union := [("a", object below), ("b", object []), ("c", string "t"), ("d", null)]
    (object incoming).regular (fun _ => true) = true ∧ mergeMembers target incoming = union ∧
      IsUnion target incoming union ∧
      IsUnion [("x", null), ("y", bool true)] [("y", object []), ("z", bool false)] below ∧
      mergeMembers union incoming = union := by
  intro target incoming below union
  have hincoming : (object incoming).regular (fun _ => true) = true := by decide
  obtain ⟨hunion, hagain⟩ := mergeMembers_union target incoming hincoming
  exact ⟨hincoming, rfl, (hunion [] _ _ rfl rfl).2, (hunion ["a"] _ _ rfl rfl).2, hagain⟩

end StateScript.Json
