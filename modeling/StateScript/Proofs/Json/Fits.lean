/-
Values that a text can hold: at most so many containers nest, and no object has a key twice. What JSON text
holds is such a value with 127 containers; and of a value that has no key twice and no number but integers,
the indented text is read again, as just this value, if and only if no more containers nest in it.
-/
import StateScript.Proofs.Json.Completeness
import StateScript.Proofs.Json.Printing
import StateScript.Proofs.Json.Soundness

namespace StateScript.Json

/-- At most so many containers nest in the value, and no object in it has a key twice. -/
inductive Fits : Nat → Json → Prop
  | scalar {v : Json} (h : v.isContainer = false) (n : Nat) : Fits n v
  | array {n : Nat} {items : List Json} (h : ∀ v ∈ items, Fits n v) : Fits (n + 1) (.array items)
  | object {n : Nat} {members : List (String × Json)} (hkeys : (Members.keys members).Nodup)
    (h : ∀ m ∈ members, Fits n m.2) : Fits (n + 1) (.object members)

theorem Fits.null (n : Nat) : Fits n .null := .scalar rfl n

theorem Fits.mono {m n : Nat} {v : Json} (h : v.Fits m) (hmn : m ≤ n) : v.Fits n := by
  induction h generalizing n with
  | scalar h _ => exact .scalar h n
  | array _ ih =>
    obtain ⟨n, rfl⟩ := Nat.exists_eq_add_of_le' (Nat.one_le_of_lt hmn)
    exact .array fun v hv => ih v hv (Nat.le_of_succ_le_succ hmn)
  | object hkeys _ ih =>
    obtain ⟨n, rfl⟩ := Nat.exists_eq_add_of_le' (Nat.one_le_of_lt hmn)
    exact .object hkeys fun m hm => ih m hm (Nat.le_of_succ_le_succ hmn)

/-! ## Depth and keys -/

/-- The two halves of fitting: keys and depth. -/
theorem fits_iff {n : Nat} {v : Json} : v.Fits n ↔ v.regular (fun _ => true) = true ∧ v.depth ≤ n := by
  constructor
  · intro h
    induction h with
    | @scalar v h n =>
      cases v <;> first | exact ⟨rfl, Nat.zero_le n⟩ | cases h
    | array _ ih =>
      exact ⟨regularItems_iff.2 fun v hv => (ih v hv).1,
        Nat.succ_le_succ (depthOfItems_le_iff.2 fun v hv => (ih v hv).2)⟩
    | object hkeys _ ih =>
      exact ⟨Bool.and_eq_true_iff.2 ⟨decide_eq_true hkeys, regularMembers_iff.2 fun m hm => (ih m hm).1⟩,
        Nat.succ_le_succ (depthOfMembers_le_iff.2 fun m hm => (ih m hm).2)⟩
  · rintro ⟨hregular, hdepth⟩
    induction n generalizing v with
    | zero =>
      cases v with
      | array _ | object _ => exact absurd hdepth (Nat.not_succ_le_zero _)
      | _ => exact .scalar rfl 0
    | succ n ih =>
      cases v with
      | array items =>
        have hitems := depthOfItems_le_iff.1 (Nat.le_of_succ_le_succ hdepth)
        exact .array fun v hv => ih (regularItems_iff.1 hregular v hv) (hitems v hv)
      | object members =>
        obtain ⟨hkeys, hregular⟩ := Bool.and_eq_true_iff.1 hregular
        have hmembers := depthOfMembers_le_iff.1 (Nat.le_of_succ_le_succ hdepth)
        exact .object (of_decide_eq_true hkeys) fun m hm => ih (regularMembers_iff.1 hregular m hm) (hmembers m hm)
      | _ => exact .scalar rfl _

theorem Fits.depth_le {n : Nat} {v : Json} (h : v.Fits n) : v.depth ≤ n := (fits_iff.1 h).2

/-- What fits anywhere fits where its own depth does. -/
theorem Fits.of_depth_le {m n : Nat} {v : Json} (h : v.Fits m) (hn : v.depth ≤ n) : v.Fits n :=
  fits_iff.2 ⟨(fits_iff.1 h).1, hn⟩

/-! ## Numbers -/

mutual

/-- Every number in the value passes. -/
def eachNumber (p : Number → Bool) : Json → Bool
  | number n => p n
  | array items => eachNumberOfItems p items
  | object members => eachNumberOfMembers p members
  | _ => true
termination_by structural v => v

/-- Every number in the items passes. -/
def eachNumberOfItems (p : Number → Bool) : List Json → Bool
  | [] => true
  | v :: more => v.eachNumber p && eachNumberOfItems p more
termination_by structural vs => vs

/-- Every number in the values of the members passes. -/
def eachNumberOfMembers (p : Number → Bool) : List (String × Json) → Bool
  | [] => true
  | (_, v) :: more => v.eachNumber p && eachNumberOfMembers p more
termination_by structural ms => ms

end

mutual

theorem regular_eq (p : Number → Bool) : ∀ v : Json, v.regular p = (v.regular (fun _ => true) && v.eachNumber p)
  | null | bool _ | string _ => rfl
  | number _ => (Bool.true_and _).symm
  | array items => regularItems_eq p items
  | object members => by
    rw [regular, regularMembers_eq p members, ← Bool.and_assoc]
    rfl
termination_by structural v => v

theorem regularItems_eq (p : Number → Bool) :
    ∀ items : List Json, regularItems p items = (regularItems (fun _ => true) items && eachNumberOfItems p items)
  | [] => rfl
  | v :: more => by
    rw [regularItems, regularItems, eachNumberOfItems, regular_eq p v, regularItems_eq p more]
    ac_rfl
termination_by structural items => items

theorem regularMembers_eq (p : Number → Bool) : ∀ members : List (String × Json),
    regularMembers p members = (regularMembers (fun _ => true) members && eachNumberOfMembers p members)
  | [] => rfl
  | (_, v) :: more => by
    rw [regularMembers, regularMembers, eachNumberOfMembers, regular_eq p v, regularMembers_eq p more]
    ac_rfl
termination_by structural members => members

end

/-! ## Reading -/

namespace Grammar

variable {α : Type} {R : α → List Char → Prop} {Q : α → Prop}

theorem Elements.forall (h : ∀ a text, R a text → Q a) {as : List α} {body : List Char}
    (helements : Elements R as body) : ∀ a ∈ as, Q a := by
  induction helements with
  | last _ ha _ => exact List.forall_mem_singleton.2 (h _ _ ha)
  | comma _ ha _ _ ih => exact List.forall_mem_cons.2 ⟨h _ _ ha, ih⟩

theorem Listed.forall (h : ∀ a text, R a text → Q a) {as : List α} {body : List Char} (hlisted : Listed R as body) :
    ∀ a ∈ as, Q a := by
  cases hlisted with
  | none _ => exact List.forall_mem_nil _
  | some helements => exact helements.forall h

/-- A spelled value fits: of the members under one key the last is kept. -/
theorem Value.fits {P : Reader.Numeral → Prop} {budget : Nat} {v : Json} {text : List Char}
    (h : Value P budget v text) : v.Fits budget := by
  have hscalar : ∀ {n : Nat} {v : Json} {text : List Char}, Scalar P v text → v.Fits n := by
    intro n v text h
    cases h <;> exact .scalar rfl n
  induction budget generalizing v text with
  | zero => exact hscalar h
  | succ budget ih =>
    rcases h with h | h
    · exact hscalar h
    · cases h with
      | array hitems => exact .array (hitems.forall fun _ _ hv => ih hv)
      | @object members _ hmembers =>
        have hvalues : ∀ m ∈ members, m.2.Fits budget :=
          hmembers.forall fun _ _ ⟨_, _, _, hv⟩ => ih hv
        obtain ⟨hkeys, hmem⟩ := Members.nodup_keys_ofList members
        exact .object hkeys fun m hm => hvalues m (hmem m hm)

end Grammar

/-- What JSON text holds fits 127 containers. -/
theorem fits_of_read? {text : List Char} {v : Json} (h : read? text = some v) : v.Fits maxDepth := by
  obtain ⟨_, hv, _⟩ := holds_of_read? h
  exact hv.fits

/-! ## Printing and reading again -/

theorem indented_isBlank : Layout.indented.IsBlank := by
  refine ⟨fun level => List.forall_mem_cons.2 ⟨rfl, fun c hc => ?_⟩, [' '], rfl, List.forall_mem_singleton.2 rfl⟩
  rw [(List.mem_replicate.1 hc).2]
  rfl

/-- Of a value that has no key twice and no number but integers, the text on lines of its own is read as just
this value where no more than 127 containers nest in it, and refused where more do. -/
theorem read?_indented {n : Nat} {v : Json} (hfits : v.Fits n) (hnumbers : v.eachNumber Number.isInteger = true) :
    read? (v.indented ++ ['\n']) = if v.depth ≤ maxDepth then some v else none := by
  have hregular : v.regular Number.isInteger = true := by
    rw [regular_eq, (fits_iff.1 hfits).1, hnumbers, Bool.true_and]
  have hholds : ∀ budget, v.depth ≤ budget → Grammar.Holds Reader.AnyNumeral budget v (v.indented ++ ['\n']) :=
    fun budget hdepth => .mk Grammar.blank_nil
      (print_spells integer_printsAs indented_isBlank v budget 0 hregular hdepth) (List.forall_mem_singleton.2 rfl)
  split
  · next hdepth => exact read?_of_holds (hholds maxDepth hdepth)
  · next hdepth =>
    cases hread : read? (v.indented ++ ['\n']) with
    | none => rfl
    | some w =>
      -- the text holds this value at any depth, so nothing else can be read from it
      obtain rfl : w = v := (holds_of_read? hread).unique (hholds v.depth (Nat.le_refl _))
      exact absurd (fits_of_read? hread).depth_le hdepth

end StateScript.Json
