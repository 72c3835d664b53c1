/-
Members of an object: keys with values, in the order in which the keys first came. A new key goes to
the end, a known key keeps its place and takes the new value, and an erased key leaves the order of
the others as it was.
-/

namespace StateScript.Members

variable {α β : Type}

/-- The value under a key. -/
def get? (key : String) : List (String × α) → Option α
  | [] => none
  | (k, v) :: rest => if k = key then some v else get? key rest

/-- The members with a value under a key. -/
def put (key : String) (value : α) : List (String × α) → List (String × α)
  | [] => [(key, value)]
  | (k, v) :: rest => if k = key then (k, value) :: rest else (k, v) :: put key value rest

/-- The members without a key. -/
def erase (key : String) (members : List (String × α)) : List (String × α) :=
  members.filter (·.1 ≠ key)

/-- The members that a list of keys and values gives: a repeated key takes the last value. -/
def ofList (entries : List (String × α)) : List (String × α) :=
  entries.foldl (fun members (k, v) => put k v members) []

/-- The keys in order. -/
def keys (members : List (String × α)) : List String := members.map (·.1)

/-! ## Reading after writing -/

@[simp] theorem get?_put_self (key : String) (value : α) (members : List (String × α)) :
    get? key (put key value members) = some value := by
  induction members with
  | nil => simp [put, get?]
  | cons m rest ih =>
    obtain ⟨k, v⟩ := m
    by_cases h : k = key <;> simp [put, get?, h, ih]

theorem get?_put_of_ne {key other : String} (h : other ≠ key) (value : α) (members : List (String × α)) :
    get? other (put key value members) = get? other members := by
  induction members with
  | nil => simp [put, get?, h.symm]
  | cons m rest ih =>
    obtain ⟨k, v⟩ := m
    by_cases hk : k = key
    · simp [put, get?, hk, h.symm]
    · by_cases ho : k = other
      · subst ho; simp [put, get?, hk]
      · simp [put, get?, hk, ho, ih]

@[simp] theorem get?_erase_self (key : String) (members : List (String × α)) :
    get? key (erase key members) = none := by
  induction members with
  | nil => rfl
  | cons m rest ih =>
    obtain ⟨k, v⟩ := m
    by_cases h : k = key
    · simpa [erase, h] using ih
    · simpa [erase, get?, h] using ih

theorem get?_erase_of_ne {key other : String} (h : other ≠ key) (members : List (String × α)) :
    get? other (erase key members) = get? other members := by
  induction members with
  | nil => rfl
  | cons m rest ih =>
    obtain ⟨k, v⟩ := m
    by_cases hk : k = key
    · simpa [erase, get?, hk, h.symm] using ih
    · by_cases ho : k = other
      · subst ho; simp [erase, get?, hk]
      · simpa [erase, get?, hk, ho] using ih

/-- The members without a key are the same whatever is under the key. -/
theorem erase_put (key : String) (value : α) (members : List (String × α)) :
    erase key (put key value members) = erase key members := by
  induction members with
  | nil => simp [put, erase]
  | cons m rest ih =>
    obtain ⟨k, v⟩ := m
    by_cases h : k = key
    · simp [put, erase, h]
    · simpa [put, erase, h] using ih

/-- Writing what is there already changes nothing. -/
theorem put_of_get? {key : String} {value : α} {members : List (String × α)}
    (h : get? key members = some value) : put key value members = members := by
  induction members with
  | nil => cases h
  | cons m rest ih =>
    obtain ⟨k, v⟩ := m
    by_cases hk : k = key
    · simp only [get?, hk, if_true, Option.some.injEq] at h
      simp [put, hk, h]
    · simp only [get?, hk, if_false] at h
      simp [put, hk, ih h]

/-- Of two writes under one key the second stands. -/
@[simp] theorem put_put (key : String) (first second : α) (members : List (String × α)) :
    put key second (put key first members) = put key second members := by
  induction members with
  | nil => simp [put]
  | cons m rest ih =>
    obtain ⟨k, v⟩ := m
    by_cases h : k = key <;> simp [put, h, ih]

/-- A key has a value just when it is one of the keys. -/
theorem get?_isSome_iff {key : String} {members : List (String × α)} :
    (get? key members).isSome = true ↔ key ∈ keys members := by
  induction members with
  | nil => simp [get?, keys]
  | cons m rest ih =>
    obtain ⟨k, v⟩ := m
    by_cases h : k = key
    · simp [get?, keys, h]
    · have h' : key ≠ k := fun e => h e.symm
      simp only [get?, h, if_false, ih, keys, List.map_cons, List.mem_cons, h', false_or]

theorem get?_eq_none_iff {key : String} {members : List (String × α)} :
    get? key members = none ↔ key ∉ keys members := by
  rw [← get?_isSome_iff, Option.not_isSome_iff_eq_none]

/-- Where no key comes twice, a member is what its key has. -/
theorem get?_of_mem {key : String} {value : α} {members : List (String × α)} (hnodup : (keys members).Nodup)
    (h : (key, value) ∈ members) : get? key members = some value := by
  induction members with
  | nil => cases h
  | cons m rest ih =>
    obtain ⟨k, v⟩ := m
    obtain ⟨hk, hrest⟩ := List.nodup_cons.1 hnodup
    rcases List.mem_cons.1 h with heq | h
    · cases heq
      rw [get?, if_pos rfl]
    · have hne : k ≠ key := by
        rintro rfl
        exact hk (List.mem_map_of_mem (f := (·.1)) h)
      rw [get?, if_neg hne, ih hrest h]

/-- The order of the keys after a write: as before, with a new key at the end. -/
theorem keys_put (key : String) (value : α) (members : List (String × α)) :
    keys (put key value members) = if key ∈ keys members then keys members else keys members ++ [key] := by
  induction members with
  | nil => simp [put, keys]
  | cons m rest ih =>
    obtain ⟨k, v⟩ := m
    by_cases h : k = key
    · simp [put, keys, h]
    · have h' : key ≠ k := fun e => h e.symm
      simp only [put, h, if_false, keys, List.map_cons, List.mem_cons, h', false_or] at ih ⊢
      rw [ih]
      split <;> simp_all

theorem keys_erase (key : String) (members : List (String × α)) :
    keys (erase key members) = (keys members).filter (· ≠ key) := by
  rw [keys, keys, List.filter_map]
  rfl

theorem erase_of_not_mem {key : String} {members : List (String × α)} (h : key ∉ keys members) :
    erase key members = members := by
  refine List.filter_eq_self.2 fun m hm => decide_eq_true ?_
  rintro rfl
  exact h (List.mem_map_of_mem hm)

/-! ## Members from a list -/

theorem ofList_concat (entries : List (String × α)) (key : String) (value : α) :
    ofList (entries ++ [(key, value)]) = put key value (ofList entries) := by
  rw [ofList, List.foldl_append]
  rfl

theorem put_of_not_mem {key : String} {members : List (String × α)} (h : key ∉ keys members) (value : α) :
    put key value members = members ++ [(key, value)] := by
  induction members with
  | nil => rfl
  | cons m rest ih =>
    obtain ⟨k, v⟩ := m
    obtain ⟨hk, hrest⟩ := List.ne_and_not_mem_of_not_mem_cons h
    rw [put, if_neg (Ne.symm hk), ih hrest, List.cons_append]

/-- Members without a repeated key are a list as they stand. -/
theorem ofList_of_nodup {entries : List (String × α)} (h : (keys entries).Nodup) : ofList entries = entries := by
  rw [← entries.reverse_reverse] at h ⊢
  generalize entries.reverse = before at h ⊢
  induction before with
  | nil => rfl
  | cons entry before ih =>
    obtain ⟨key, value⟩ := entry
    rw [List.reverse_cons, keys, List.map_append, List.nodup_append] at h
    obtain ⟨hbefore, -, hne⟩ := h
    have hkey : key ∉ keys before.reverse := fun hmem => hne key hmem key (List.mem_singleton.2 rfl) rfl
    rw [List.reverse_cons, ofList_concat, ih hbefore, put_of_not_mem hkey]

/-- A repeated key has its last value. -/
theorem get?_ofList (key : String) (entries : List (String × α)) :
    get? key (ofList entries) = get? key entries.reverse := by
  rw [← entries.reverse_reverse]
  induction entries.reverse with
  | nil => rfl
  | cons entry before ih =>
    obtain ⟨k, v⟩ := entry
    rw [List.reverse_cons, ofList_concat, List.reverse_append, List.reverse_reverse]
    show _ = get? key ((k, v) :: before)
    by_cases h : k = key
    · rw [h, get?_put_self, get?, if_pos rfl]
    · rw [get?_put_of_ne (Ne.symm h), ih, List.reverse_reverse, get?, if_neg h]

/-! ## What stays in the members -/

theorem mem_put {key : String} {value : α} {m : String × α} {members : List (String × α)}
    (h : m ∈ put key value members) : m = (key, value) ∨ m ∈ members := by
  induction members with
  | nil => exact .inl (List.mem_singleton.1 h)
  | cons entry rest ih =>
    obtain ⟨k, v⟩ := entry
    rw [put] at h
    split at h
    · next hk =>
      subst hk
      exact (List.mem_cons.1 h).imp id (List.mem_cons_of_mem _)
    · rcases List.mem_cons.1 h with rfl | h
      · exact .inr List.mem_cons_self
      · exact (ih h).imp id (List.mem_cons_of_mem _)

theorem mem_of_get? {key : String} {value : α} {members : List (String × α)} (h : get? key members = some value) :
    (key, value) ∈ members := by
  induction members with
  | nil => cases h
  | cons entry rest ih =>
    obtain ⟨k, v⟩ := entry
    rw [get?] at h
    split at h
    · next hk =>
      cases h
      subst hk
      exact List.mem_cons_self
    · exact List.mem_cons_of_mem _ (ih h)

theorem nodup_keys_put (key : String) (value : α) {members : List (String × α)} (h : (keys members).Nodup) :
    (keys (put key value members)).Nodup := by
  rw [keys_put]
  split
  · exact h
  · next hkey =>
    refine List.nodup_append.2 ⟨h, List.nodup_cons.2 ⟨List.not_mem_nil, List.nodup_nil⟩, ?_⟩
    rintro k hk _ hmem rfl
    obtain rfl := List.mem_singleton.1 hmem
    exact hkey hk

theorem nodup_keys_erase (key : String) {members : List (String × α)} (h : (keys members).Nodup) :
    (keys (erase key members)).Nodup :=
  h.sublist (List.filter_sublist.map _)

/-- Members from a list have each key once, with one of its values. -/
theorem nodup_keys_ofList (entries : List (String × α)) :
    (keys (ofList entries)).Nodup ∧ ∀ m ∈ ofList entries, m ∈ entries := by
  have hnodup : (keys (ofList entries)).Nodup := by
    rw [← entries.reverse_reverse]
    induction entries.reverse with
    | nil => exact List.nodup_nil
    | cons entry before ih =>
      rw [List.reverse_cons, ofList_concat]
      exact nodup_keys_put entry.1 entry.2 ih
  refine ⟨hnodup, fun m hm => ?_⟩
  have hget : get? m.1 (ofList entries) = some m.2 := get?_of_mem hnodup hm
  rw [get?_ofList] at hget
  exact List.mem_reverse.1 (mem_of_get? hget)

end StateScript.Members
