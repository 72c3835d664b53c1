/-
Trees that are equal but for the order of members. A node is known by its places: a member by its key, an
item by its number. Two trees are alike when every way from place to place leads in both to one scalar, in
both to arrays, in both to objects, or in both nowhere. It is enough to compare two nodes and, place by
place, what is in them.

Where no key comes twice in an object, alike trees are the same in the equality of values. That equality
goes further in one thing only: it takes the two zeros for one number.
-/
import StateScript.Proofs.Json.Printing
import Mathlib.Data.List.Forall2

namespace StateScript

/-- A place in a node: a member by its key, or an item by its number. -/
inductive Place where
  | key (name : String)
  | item (index : Nat)
  deriving DecidableEq

namespace Json

/-- What is at a place of a node. -/
def at? : Json → Place → Option Json
  | object members, .key name => Members.get? name members
  | array items, .item index => items[index]?
  | _, _ => none

/-- What a way from place to place leads to. -/
def follow? : Json → List Place → Option Json
  | node, [] => some node
  | node, place :: rest => (node.at? place).bind fun child => child.follow? rest

/-- The node with nothing in it. -/
def face : Json → Json
  | array _ => array []
  | object _ => object []
  | scalar => scalar

/-- The trees are equal but for the order of members. -/
def Alike (a b : Json) : Prop := ∀ way, (a.follow? way).map face = (b.follow? way).map face

variable {a b c : Json}

@[refl] theorem Alike.refl (a : Json) : a.Alike a := fun _ => rfl

@[symm] theorem Alike.symm (h : a.Alike b) : b.Alike a := fun way => (h way).symm

theorem Alike.trans (hab : a.Alike b) (hbc : b.Alike c) : a.Alike c := fun way => (hab way).trans (hbc way)

/-- Nodes are alike when they are of one kind, and at each place there is nothing in both or there are
alike trees. -/
theorem alike_iff : a.Alike b ↔ a.face = b.face ∧ ∀ place, Option.Rel Alike (a.at? place) (b.at? place) := by
  constructor
  · intro h
    refine ⟨Option.some.inj (h []), fun place => ?_⟩
    have hway : ∀ rest, ((a.at? place).bind (·.follow? rest)).map face =
        ((b.at? place).bind (·.follow? rest)).map face := fun rest => h (place :: rest)
    generalize a.at? place = x at hway ⊢
    generalize b.at? place = y at hway ⊢
    rcases x with _ | x <;> rcases y with _ | y
    · exact .none
    · cases hway []
    · cases hway []
    · exact .some hway
  · rintro ⟨hface, hplaces⟩ way
    rcases way with _ | ⟨place, rest⟩
    · exact congrArg some hface
    · have hplace := hplaces place
      rw [follow?, follow?]
      generalize a.at? place = x at hplace ⊢
      generalize b.at? place = y at hplace ⊢
      rcases hplace with h | _
      · exact h rest
      · rfl

theorem rel_alike_refl (slot : Option Json) : Option.Rel Alike slot slot := by
  cases slot with
  | none => exact .none
  | some node => exact .some (.refl node)

/-- Alike values under one key of an object leave alike objects. -/
theorem Alike.put (h : a.Alike b) (key : String) (members : List (String × Json)) :
    (object (Members.put key a members)).Alike (object (Members.put key b members)) := by
  refine alike_iff.2 ⟨rfl, fun place => ?_⟩
  cases place with
  | item index => exact .none
  | key name =>
    by_cases hname : name = key
    · subst hname
      simpa only [at?, Members.get?_put_self] using Option.Rel.some h
    · simp only [at?, Members.get?_put_of_ne hname]
      exact rel_alike_refl _

/-! ## The equality of values -/

theorem Alike.forall₂ : ∀ {xs ys : List Json}, (array xs).Alike (array ys) → List.Forall₂ Alike xs ys
  | [], [], _ => .nil
  | [], _ :: _, h => by cases (alike_iff.1 h).2 (.item 0)
  | _ :: _, [], h => by cases (alike_iff.1 h).2 (.item 0)
  | x :: xs, y :: ys, h => by
    have hplaces := (alike_iff.1 h).2
    have hhead : x.Alike y := by
      rcases hplaces (.item 0) with h | _
      exact h
    have htail : (array xs).Alike (array ys) := by
      refine alike_iff.2 ⟨rfl, fun place => ?_⟩
      cases place with
      | key name => exact .none
      | item index => exact hplaces (.item (index + 1))
    exact .cons hhead htail.forall₂

/-- Members without a repeated key that are alike at every key have the same keys. -/
theorem Alike.length_eq {ms ns : List (String × Json)} (h : (object ms).Alike (object ns))
    (hms : (Members.keys ms).Nodup) (hns : (Members.keys ns).Nodup) : ms.length = ns.length := by
  have hkeys : (Members.keys ms).Perm (Members.keys ns) := by
    refine (List.perm_ext_iff_of_nodup hms hns).2 fun key => ?_
    have hkey : Option.Rel Alike (Members.get? key ms) (Members.get? key ns) := (alike_iff.1 h).2 (.key key)
    rw [← Members.get?_isSome_iff, ← Members.get?_isSome_iff]
    generalize Members.get? key ms = x at hkey ⊢
    generalize Members.get? key ns = y at hkey ⊢
    cases hkey <;> simp
  simpa only [Members.keys, List.length_map] using hkeys.length_eq

theorem regular_of_get? {p : Number → Bool} {key : String} {v : Json} {members : List (String × Json)}
    (hregular : regularMembers p members = true) (h : Members.get? key members = some v) : v.regular p = true :=
  regularMembers_iff.1 hregular (key, v) (Members.mem_of_get? h)

mutual

/-- Alike trees in which no object has a key twice are the same value. -/
theorem same_of_alike : ∀ {a b : Json}, a.regular (fun _ => true) = true → b.regular (fun _ => true) = true →
    a.Alike b → a.same b = true
  | array xs, b, ha, hb, h => by
    cases b with
    | array ys => exact sameItems_of_forall₂ ha hb h.forall₂
    | _ => cases (alike_iff.1 h).1
  | object ms, b, ha, hb, h => by
    cases b with
    | object ns =>
      obtain ⟨hms, ha⟩ := Bool.and_eq_true_iff.1 ha
      obtain ⟨hns, hb⟩ := Bool.and_eq_true_iff.1 hb
      have hms := of_decide_eq_true hms
      refine Bool.and_eq_true_iff.2 ⟨beq_iff_eq.2 (h.length_eq hms (of_decide_eq_true hns)), ?_⟩
      refine sameMembers_of_alike ha hb fun key v hmem => ?_
      have hkey : Option.Rel Alike (Members.get? key ms) (Members.get? key ns) := (alike_iff.1 h).2 (.key key)
      rw [Members.get?_of_mem hms hmem] at hkey
      generalize Members.get? key ns = w at hkey ⊢
      rcases hkey with hvw | _
      exact ⟨_, rfl, hvw⟩
    | _ => cases (alike_iff.1 h).1
  | null, b, _, _, h => by
    cases b <;> cases (alike_iff.1 h).1
    rfl
  | bool _, b, _, _, h => by
    cases b <;> cases (alike_iff.1 h).1
    exact beq_self_eq_true _
  | number n, b, _, _, h => by
    cases b <;> cases (alike_iff.1 h).1
    exact n.same_self
  | string _, b, _, _, h => by
    cases b <;> cases (alike_iff.1 h).1
    exact beq_self_eq_true _

theorem sameItems_of_forall₂ : ∀ {xs ys : List Json}, regularItems (fun _ => true) xs = true →
    regularItems (fun _ => true) ys = true → List.Forall₂ Alike xs ys → sameItems xs ys = true
  | [], [], _, _, _ => rfl
  | x :: xs, y :: ys, hxs, hys, .cons hxy h => by
    obtain ⟨hx, hxs⟩ := Bool.and_eq_true_iff.1 hxs
    obtain ⟨hy, hys⟩ := Bool.and_eq_true_iff.1 hys
    exact Bool.and_eq_true_iff.2 ⟨same_of_alike hx hy hxy, sameItems_of_forall₂ hxs hys h⟩

theorem sameMembers_of_alike : ∀ {rest others : List (String × Json)}, regularMembers (fun _ => true) rest = true →
    regularMembers (fun _ => true) others = true →
    (∀ key v, (key, v) ∈ rest → ∃ w, Members.get? key others = some w ∧ v.Alike w) → sameMembers rest others = true
  | [], _, _, _, _ => rfl
  | (key, v) :: rest, others, hrest, hothers, h => by
    obtain ⟨hv, hrest⟩ := Bool.and_eq_true_iff.1 hrest
    obtain ⟨w, hw, hvw⟩ := h key v List.mem_cons_self
    rw [sameMembers, hw]
    refine Bool.and_eq_true_iff.2 ⟨same_of_alike hv (regular_of_get? hothers hw) hvw, ?_⟩
    exact sameMembers_of_alike hrest hothers fun key v hmem => h key v (List.mem_cons_of_mem _ hmem)

end

end Json

end StateScript
