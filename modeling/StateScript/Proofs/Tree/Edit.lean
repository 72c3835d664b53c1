/-
Edits, place by place. An edit writes a value at a path or takes away what is there. It leaves the kind of
the container that it goes into; at the place that its path leads through first it makes of the slot what the
rest of it makes of this, and at every other place it leaves what was there.

An array is taken here as going on with nulls behind its last item, since this is what an edit finds there;
how far it really goes is its span. A slot is what stands at a place, or nothing, which is all that a removal
leaves in an object.
-/
import StateScript.Execution
import StateScript.Proofs.Tree.Alike
import StateScript.Proofs.Tree.Lens

namespace StateScript

/-- A value to be written at a path, or `undefined` where what is there is to go. -/
structure Edit where
  path : List String
  operand : Operand

deriving instance DecidableEq for Edit

namespace Json

/-! ## Places of a container -/

/-- The place that a segment addresses in a container. -/
def place? (node : Json) (key : String) : Option Place :=
  match node with
  | array _ => (arrayIndex? key).map .item
  | object _ => some (.key key)
  | _ => none

/-- What an edit finds at a place. -/
def held (node : Json) (place : Place) : Option Json :=
  match node, place with
  | array items, .item index => some (items[index]?.getD null)
  | object members, .key name => Members.get? name members
  | _, _ => none

/-- What a removal leaves at a place. -/
def vacant : Json → Option Json
  | array _ => some null
  | _ => none

/-- How far an array goes. -/
def span : Json → Nat
  | array items => items.length
  | _ => 0

end Json

/-- How far an array goes that has an item at the place. -/
def Place.reach : Place → Nat
  | key _ => 0
  | item index => index + 1

namespace Json

variable {node other : Json} {key : String} {place : Place}

@[simp] theorem isContainer_face (node : Json) : node.face.isContainer = node.isContainer := by cases node <;> rfl

@[simp] theorem place?_face (node : Json) (key : String) : node.face.place? key = node.place? key := by
  cases node <;> rfl

@[simp] theorem vacant_face (node : Json) : node.face.vacant = node.vacant := by cases node <;> rfl

theorem isContainer_congr (h : node.face = other.face) : node.isContainer = other.isContainer := by
  rw [← isContainer_face, h, isContainer_face]

theorem place?_congr (h : node.face = other.face) : node.place? = other.place? := by
  funext key
  rw [← place?_face, h, place?_face]

theorem vacant_congr (h : node.face = other.face) : node.vacant = other.vacant := by
  rw [← vacant_face, h, vacant_face]

/-- Containers of one kind and one span are alike if alike trees are found at each place. -/
theorem alike_of_held (hface : node.face = other.face) (hspan : node.span = other.span)
    (h : ∀ place, Option.Rel Alike (node.held place) (other.held place)) : node.Alike other := by
  refine alike_iff.2 ⟨hface, fun place => ?_⟩
  have hplace := h place
  cases node <;> cases other <;> cases hface <;> cases place <;> try exact .none
  · next items others index =>
    have hlength : items.length = others.length := hspan
    simp only [at?]
    by_cases hindex : index < items.length
    · have hother : index < others.length := hlength ▸ hindex
      simpa only [held, List.getElem?_eq_getElem hindex, List.getElem?_eq_getElem hother, Option.getD_some] using hplace
    · rw [List.getElem?_eq_none (Nat.not_lt.1 hindex), List.getElem?_eq_none (hlength ▸ Nat.not_lt.1 hindex)]
      exact .none
  · exact hplace

/-! ## One change -/

theorem place?_of_refusal? (hc : node.isContainer = true) (h : node.refusal? key = none) :
    ∃ place, node.place? key = some place := by
  cases node with
  | array items =>
    cases hi : arrayIndex? key with
    | none => simp [refusal?, hi] at h
    | some i => exact ⟨.item i, by simp only [place?, hi, Option.map_some]⟩
  | object members => exact ⟨.key key, rfl⟩
  | _ => cases hc

theorem getD_child? (h : node.place? key = some place) : (node.child? key).getD null = (node.held place).getD null := by
  cases node with
  | array items =>
    obtain ⟨i, hi, rfl⟩ := Option.map_eq_some_iff.1 h
    simp only [child?, held, hi, Option.bind_some, Option.getD_some]
  | object members => cases h; rfl
  | _ => cases h

/-- Where nothing stands, a removal would leave what is found. -/
theorem held_of_child?_eq_none (h : node.place? key = some place) (hchild : node.child? key = none) :
    node.held place = node.vacant := by
  cases node with
  | array items =>
    obtain ⟨i, hi, rfl⟩ := Option.map_eq_some_iff.1 h
    rw [child?, hi, Option.bind_some] at hchild
    simp only [held, vacant, hchild, Option.getD_none]
  | object members => cases h; exact hchild
  | _ => cases h

theorem held_of_child? (h : node.place? key = some place) {child : Json} (hchild : node.child? key = some child) :
    node.held place = some child := by
  cases node with
  | array items =>
    obtain ⟨i, hi, rfl⟩ := Option.map_eq_some_iff.1 h
    rw [child?, hi, Option.bind_some] at hchild
    simp only [held, hchild, Option.getD_some]
  | object members => cases h; exact hchild
  | _ => cases h

theorem getD_rightpad (items : List Json) (length index : Nat) :
    (items.rightpad length null)[index]?.getD null = items[index]?.getD null := by
  rw [List.rightpad, List.getElem?_append]
  split
  · rfl
  · next h =>
    rw [List.getElem?_eq_none (Nat.not_lt.1 h), List.getElem?_replicate]
    split <;> rfl

theorem held_withChild (h : node.place? key = some place) (child : Json) (p : Place) :
    (node.withChild key child).held p = if p = place then some child else node.held p := by
  cases node with
  | array items =>
    obtain ⟨i, hi, rfl⟩ := Option.map_eq_some_iff.1 h
    cases p with
    | key name => rw [if_neg (by simp)]; simp only [withChild, hi, held]
    | item j =>
      simp only [withChild, hi, held]
      by_cases hj : j = i
      · have hlt : j < (items.rightpad (j + 1) null).length := by
          simp only [List.rightpad, List.length_append, List.length_replicate]
          omega
        subst hj
        rw [if_pos rfl, List.getElem?_set_self hlt, Option.getD_some]
      · rw [if_neg (by simpa using hj), List.getElem?_set_ne (Ne.symm hj), getD_rightpad]
  | object members =>
    cases h
    cases p with
    | item j => rw [if_neg (by simp)]; rfl
    | key name =>
      by_cases hname : name = key
      · subst hname
        simp only [withChild, held, Members.get?_put_self, if_true]
      · rw [if_neg (by simpa using hname)]
        exact Members.get?_put_of_ne hname child members
  | _ => cases h

theorem held_withoutChild (h : node.place? key = some place) (p : Place) :
    (node.withoutChild key).held p = if p = place then node.vacant else node.held p := by
  cases node with
  | array items =>
    obtain ⟨i, hi, rfl⟩ := Option.map_eq_some_iff.1 h
    cases p with
    | key name => rw [if_neg (by simp)]; simp only [withoutChild, hi, held]
    | item j =>
      simp only [withoutChild, hi, held]
      by_cases hj : j = i
      · subst hj
        rw [if_pos rfl, List.getElem?_set, if_pos rfl]
        split <;> rfl
      · rw [if_neg (by simpa using hj), List.getElem?_set_ne (Ne.symm hj)]
  | object members =>
    cases h
    cases p with
    | item j => rw [if_neg (by simp)]; rfl
    | key name =>
      by_cases hname : name = key
      · subst hname
        simp only [withoutChild, held, Members.get?_erase_self, if_true, vacant]
      · rw [if_neg (by simpa using hname)]
        exact Members.get?_erase_of_ne hname members
  | _ => cases h

theorem face_withChild (hc : node.isContainer = true) (child : Json) : (node.withChild key child).face = node.face := by
  cases node with
  | array items =>
    rw [withChild]
    split <;> rfl
  | object members => rfl
  | _ => cases hc

theorem face_withoutChild (key : String) : (node.withoutChild key).face = node.face := by
  cases node with
  | array items =>
    rw [withoutChild]
    split <;> rfl
  | _ => rfl

theorem span_withChild (h : node.place? key = some place) (child : Json) :
    (node.withChild key child).span = max node.span place.reach := by
  cases node with
  | array items =>
    obtain ⟨i, hi, rfl⟩ := Option.map_eq_some_iff.1 h
    simp only [withChild, hi, span, Place.reach, List.length_set, List.rightpad, List.length_append,
      List.length_replicate]
    omega
  | object members => cases h; rfl
  | _ => cases h

theorem span_withoutChild (key : String) : (node.withoutChild key).span = node.span := by
  cases node with
  | array items =>
    rw [withoutChild]
    split
    · exact List.length_set
    · rfl
  | _ => rfl

/-! ## One edit -/

/-- The tree that an edit leaves, whether it succeeds or not. -/
def edited (node : Json) (edit : Edit) : Json :=
  match edit.operand with
  | .undefined => (node.erase? edit.path).getD node
  | .value json => (node.write edit.path json).tree

/-- The edit succeeds. A removal always does. -/
def Takes (node : Json) (edit : Edit) : Prop :=
  ∀ json, edit.operand = .value json → (node.write edit.path json).error? = none

/-- The node itself does not refuse the edit, whatever is below. -/
def Admits (node : Json) (edit : Edit) : Prop :=
  ∀ json key rest, edit.operand = .value json → edit.path = key :: rest → node.refusal? key = none

end Json

namespace Edit

/-- The edit writes a value. -/
def IsWrite (edit : Edit) : Prop := ∃ json, edit.operand = .value json

/-- What an edit makes of a slot. -/
def onSlot (vacant slot : Option Json) (edit : Edit) : Option Json :=
  match edit.path, edit.operand with
  | [], .undefined => vacant
  | [], .value json => some json
  | _ :: _, .undefined => slot.map (·.edited edit)
  | _ :: _, .value _ => some (((slot.getD .null).readied edit.path).edited edit)

/-- The edit succeeds in a slot. -/
def FitsSlot (slot : Option Json) (edit : Edit) : Prop := ((slot.getD .null).readied edit.path).Takes edit

/-- The edit behind the first segment of its path, if that addresses the place. -/
def below? (node : Json) (place : Place) (edit : Edit) : Option Edit :=
  match edit.path with
  | [] => none
  | key :: rest => if node.place? key = some place then some ⟨rest, edit.operand⟩ else none

/-- How far an edit makes an array go. -/
def reach (node : Json) (edit : Edit) : Nat :=
  match edit.path, edit.operand with
  | key :: _, .value _ => (node.place? key).elim 0 Place.reach
  | _, _ => 0

end Edit

namespace Json

variable {node other : Json} {key : String} {rest : List String} {operand : Operand} {edit : Edit} {place : Place}

theorem erase?_of_child?_eq_none (h : node.child? key = none) : node.erase? (key :: rest) = none := by
  cases rest <;> simp [erase?, h]

theorem reach_le_span (h : node.place? key = some place) {child : Json} (hchild : node.child? key = some child) :
    place.reach ≤ node.span := by
  cases node with
  | array items =>
    obtain ⟨i, hi, rfl⟩ := Option.map_eq_some_iff.1 h
    rw [child?, hi, Option.bind_some] at hchild
    exact (List.getElem?_eq_some_iff.1 hchild).1
  | object members => cases h; exact Nat.zero_le _
  | _ => cases h

/-- What an edit makes of a container that admits it: nothing, where a removal finds nothing; another child,
which a removal needs an old one for; or one child less. -/
theorem edited_cases (h : node.place? key = some place) (ha : node.Admits ⟨key :: rest, operand⟩) :
    (node.edited ⟨key :: rest, operand⟩ = node ∧ operand = .undefined ∧
      Edit.onSlot node.vacant (node.held place) ⟨rest, operand⟩ = node.held place) ∨
    (∃ child, node.edited ⟨key :: rest, operand⟩ = node.withChild key child ∧
      (operand = .undefined → place.reach ≤ node.span) ∧
      Edit.onSlot node.vacant (node.held place) ⟨rest, operand⟩ = some child) ∨
    (node.edited ⟨key :: rest, operand⟩ = node.withoutChild key ∧ operand = .undefined ∧
      Edit.onSlot node.vacant (node.held place) ⟨rest, operand⟩ = node.vacant) := by
  cases operand with
  | value json =>
    have hr := ha json key rest rfl rfl
    refine .inr (.inl ⟨((((node.child? key).getD null).readied rest).write rest json).tree, ?_, nofun, ?_⟩)
    · simp only [edited, write_cons hr]
    · cases rest with
      | nil => rfl
      | cons next rest => rw [getD_child? h]; rfl
  | undefined =>
    cases hchild : node.child? key with
    | none =>
      refine .inl ⟨?_, rfl, ?_⟩
      · rw [edited, erase?_of_child?_eq_none hchild, Option.getD_none]
      · rw [held_of_child?_eq_none h hchild]
        cases rest with
        | nil => rfl
        | cons next rest => cases node <;> first | rfl | cases rest <;> rfl
    | some child =>
      have hheld := held_of_child? h hchild
      cases rest with
      | nil =>
        refine .inr (.inr ⟨?_, rfl, rfl⟩)
        rw [edited, erase?, hchild, Option.map_some, Option.getD_some]
      | cons next rest =>
        refine .inr (.inl ⟨child.edited ⟨next :: rest, .undefined⟩, ?_, fun _ => reach_le_span h hchild, ?_⟩)
        · simp only [edited]
          rw [erase?, hchild, Option.bind_some]
          · cases child.erase? (next :: rest) with
            | none => exact (withChild_of_child? hchild).symm
            | some changed => rfl
          · simp
        · rw [hheld]
          rfl

/-- An edit that a container admits without a place for it finds nothing to take away. -/
theorem edited_of_place?_eq_none (hc : node.isContainer = true) (h : node.place? key = none)
    (ha : node.Admits ⟨key :: rest, operand⟩) : node.edited ⟨key :: rest, operand⟩ = node := by
  cases operand with
  | value json =>
    obtain ⟨place, hplace⟩ := place?_of_refusal? hc (ha json key rest rfl rfl)
    rw [hplace] at h
    cases h
  | undefined =>
    have hchild : node.child? key = none := by
      cases node with
      | array items => rw [child?, Option.map_eq_none_iff.1 h, Option.bind_none]
      | object members => cases h
      | _ => cases hc
    rw [edited, erase?_of_child?_eq_none hchild, Option.getD_none]

/-- What an edit leaves at a place: what it makes of the slot, if its path leads through the place, and
otherwise what was there. -/
theorem held_edited (hc : node.isContainer = true) (hpath : edit.path ≠ []) (ha : node.Admits edit) (p : Place) :
    (node.edited edit).held p =
      match edit.below? node p with
      | some below => below.onSlot node.vacant (node.held p)
      | none => node.held p := by
  obtain ⟨_ | ⟨key, rest⟩, operand⟩ := edit
  · exact absurd rfl hpath
  cases hplace : node.place? key with
  | none =>
    have hb : Edit.below? node p ⟨key :: rest, operand⟩ = none := by simp [Edit.below?, hplace]
    rw [edited_of_place?_eq_none hc hplace ha, hb]
  | some place =>
    have hcases := edited_cases hplace ha
    by_cases hp : p = place
    · have hb : Edit.below? node p ⟨key :: rest, operand⟩ = some ⟨rest, operand⟩ := by simp [Edit.below?, hplace, hp]
      rw [hb, hp]
      rcases hcases with ⟨h, -, hslot⟩ | ⟨child, h, -, hslot⟩ | ⟨h, -, hslot⟩ <;>
        simp [h, hslot, held_withChild hplace, held_withoutChild hplace]
    · have hb : Edit.below? node p ⟨key :: rest, operand⟩ = none := by simp [Edit.below?, hplace, Ne.symm hp]
      rw [hb]
      rcases hcases with ⟨h, -, -⟩ | ⟨child, h, -, -⟩ | ⟨h, -, -⟩ <;>
        simp [h, hp, held_withChild hplace, held_withoutChild hplace]

theorem face_edited (hc : node.isContainer = true) (hpath : edit.path ≠ []) (ha : node.Admits edit) :
    (node.edited edit).face = node.face := by
  obtain ⟨_ | ⟨key, rest⟩, operand⟩ := edit
  · exact absurd rfl hpath
  cases hplace : node.place? key with
  | none => rw [edited_of_place?_eq_none hc hplace ha]
  | some place =>
    rcases edited_cases hplace ha with ⟨h, -, -⟩ | ⟨child, h, -, -⟩ | ⟨h, -, -⟩ <;> rw [h]
    · exact face_withChild hc child
    · exact face_withoutChild key

theorem span_edited (hc : node.isContainer = true) (hpath : edit.path ≠ []) (ha : node.Admits edit) :
    (node.edited edit).span = max node.span (edit.reach node) := by
  obtain ⟨_ | ⟨key, rest⟩, operand⟩ := edit
  · exact absurd rfl hpath
  cases hplace : node.place? key with
  | none =>
    rw [edited_of_place?_eq_none hc hplace ha]
    cases operand <;> simp [Edit.reach, hplace]
  | some place =>
    rcases edited_cases hplace ha with ⟨h, hoperand, -⟩ | ⟨child, h, hreach, -⟩ | ⟨h, hoperand, -⟩ <;> rw [h]
    · simp [Edit.reach, hoperand]
    · rw [span_withChild hplace]
      cases operand with
      | undefined => simp [Edit.reach, hreach rfl]
      | value json => simp [Edit.reach, hplace]
    · simp [Edit.reach, hoperand, span_withoutChild]

theorem below?_eq_some_iff {below : Edit} : Edit.below? node place ⟨key :: rest, operand⟩ = some below ↔
    node.place? key = some place ∧ below = ⟨rest, operand⟩ := by
  by_cases hplace : node.place? key = some place
  · simp [Edit.below?, hplace, eq_comm]
  · simp [Edit.below?, hplace]

theorem exists_of_below? {below : Edit} (h : edit.below? node place = some below) :
    ∃ key, edit.path = key :: below.path ∧ node.place? key = some place ∧ below.operand = edit.operand := by
  obtain ⟨_ | ⟨key, rest⟩, operand⟩ := edit
  · cases h
  · obtain ⟨hplace, rfl⟩ := below?_eq_some_iff.1 h
    exact ⟨key, rfl, hplace, rfl⟩

/-- An edit succeeds in a container if that admits it and the rest of it succeeds in the slot. -/
theorem takes_iff (hc : node.isContainer = true) (hpath : edit.path ≠ []) :
    node.Takes edit ↔
      node.Admits edit ∧ ∀ place below, edit.below? node place = some below → below.FitsSlot (node.held place) := by
  obtain ⟨_ | ⟨key, rest⟩, operand⟩ := edit
  · exact absurd rfl hpath
  constructor
  · intro h
    refine ⟨?_, ?_⟩
    · rintro json _ _ rfl ⟨⟩
      exact (error?_write_cons (h json rfl)).1
    · rintro place _ hb json hjson
      obtain ⟨hplace, rfl⟩ := below?_eq_some_iff.1 hb
      rw [← getD_child? hplace]
      cases hjson
      exact (error?_write_cons (h json rfl)).2
  · rintro ⟨ha, h⟩ json rfl
    have hr := ha json key rest rfl rfl
    obtain ⟨place, hplace⟩ := place?_of_refusal? hc hr
    have hfits := h place _ (below?_eq_some_iff.2 ⟨hplace, rfl⟩) json rfl
    rw [← getD_child? hplace] at hfits
    rw [write_cons hr]
    exact hfits

theorem below?_congr (h : node.face = other.face) : Edit.below? node = Edit.below? other := by
  funext place edit
  simp only [Edit.below?, place?_congr h]

theorem reach_congr (h : node.face = other.face) : Edit.reach node = Edit.reach other := by
  funext edit
  simp only [Edit.reach, place?_congr h]

/-- A tree that is no container is written into as an empty object. -/
theorem edited_of_not_container (hc : node.isContainer = false) {e : Edit} (hpath : e.path ≠ []) (hwrite : e.IsWrite) :
    node.edited e = (object []).edited e ∧ (node.Takes e ↔ (object []).Takes e) := by
  obtain ⟨_ | ⟨key, rest⟩, operand⟩ := e
  · exact absurd rfl hpath
  obtain ⟨json, rfl⟩ := hwrite
  have hwrite : ∀ value, node.write (key :: rest) value = (object []).write (key :: rest) value := by
    intro value
    cases node <;> first | rfl | cases hc
  exact ⟨by simp only [edited, hwrite], by simp only [Takes, hwrite]⟩

/-! ## A slot -/

/-- A container in a slot is edited as a tree. -/
theorem onSlot_some (hc : node.isContainer = true) (hpath : edit.path ≠ []) (vacant : Option Json) :
    edit.onSlot vacant (some node) = some (node.edited edit) ∧ (edit.FitsSlot (some node) ↔ node.Takes edit) := by
  have hready : node.readied edit.path = node := readied_of_isContainer hc _
  obtain ⟨_ | ⟨key, rest⟩, operand⟩ := edit
  · exact absurd rfl hpath
  refine ⟨?_, by rw [Edit.FitsSlot, Option.getD_some, hready]⟩
  cases operand with
  | undefined => rfl
  | value json => simp only [Edit.onSlot, Option.getD_some, hready]

/-- There is a container in a slot, or there is none. -/
theorem container_or_vacant (slot : Option Json) : (∃ node, slot = some node ∧ node.isContainer = true) ∨
    ∀ node, slot = some node → node.isContainer = false := by
  cases slot with
  | none => exact .inr nofun
  | some node =>
    cases hc : node.isContainer with
    | true => exact .inl ⟨node, rfl, hc⟩
    | false =>
      refine .inr ?_
      rintro _ ⟨⟩
      exact hc

/-- A write into a slot without a container makes one for its first segment. -/
theorem onSlot_of_vacant {slot : Option Json} (hslot : ∀ node, slot = some node → node.isContainer = false)
    {edit : Edit} (hwrite : edit.IsWrite) {key : String} {rest : List String} (hpath : edit.path = key :: rest)
    (vacant : Option Json) :
    edit.onSlot vacant slot = edit.onSlot vacant (some (emptyFor key)) ∧
      (edit.FitsSlot slot ↔ edit.FitsSlot (some (emptyFor key))) := by
  obtain ⟨path, operand⟩ := edit
  obtain ⟨json, rfl⟩ := hwrite
  cases hpath
  have hready : (slot.getD null).readied (key :: rest) = (emptyFor key).readied (key :: rest) := by
    rw [readied_of_isContainer (isContainer_emptyFor key), readied]
    have hscalar : (slot.getD null).isContainer = false := by
      cases slot with
      | none => rfl
      | some node => exact hslot node rfl
    rw [hscalar]
    rfl
  constructor
  · simp only [Edit.onSlot, hready, Option.getD_some]
  · rw [Edit.FitsSlot, Edit.FitsSlot, hready, Option.getD_some]

end Json

end StateScript
