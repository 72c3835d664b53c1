/-
Writes in another order. Where the paths of writes diverge from each other, two by two, and the writes all
succeed in one order and all succeed in another, they leave trees that are alike. Which container comes into
being on the way is settled by whichever write comes first, and arrays are filled up in other steps; but a
write that finds the other kind of container is refused, and in the end an array goes as far as the farthest
of its writes.

Along segments that are no indices all containers that writes make are objects, and nothing is refused: on
an empty tree such writes succeed in every order.

The proofs go down into the places of a container at once: what is left of the paths behind one place again
diverges, two by two.
-/
import StateScript.Proofs.Tree.Edits
import StateScript.Proofs.Tree.Frame

namespace StateScript

namespace Edit

/-- The paths of the edits diverge. -/
def Parts (e f : Edit) : Prop := Diverges e.path f.path

/-- No segment of the path is an index. -/
def IsKeyed (edit : Edit) : Prop := ∀ segment ∈ edit.path, arrayIndex? segment = none

variable {node : Json} {place : Place} {e f e' f' : Edit}

/-- Segments of one place in a container are not apart. -/
theorem not_apart_of_place? {a b : String} (ha : node.place? a = some place) (hb : node.place? b = some place) :
    ¬ Apart a b := by
  rintro ⟨hne, hindex⟩
  cases node with
  | array items =>
    obtain ⟨i, hi, rfl⟩ := Option.map_eq_some_iff.1 ha
    obtain ⟨j, hj, heq⟩ := Option.map_eq_some_iff.1 hb
    cases heq
    exact hindex _ hi hj
  | object members =>
    cases ha
    cases hb
    exact hne rfl
  | _ => cases ha

/-- Behind one place the paths diverge again. -/
theorem Parts.below (h : e.Parts f) (he : e.below? node place = some e') (hf : f.below? node place = some f') :
    e'.Parts f' := by
  obtain ⟨a, hepath, ha, -⟩ := Json.exists_of_below? he
  obtain ⟨b, hfpath, hb, -⟩ := Json.exists_of_below? hf
  unfold Parts at h
  rw [hepath, hfpath] at h
  exact (diverges_cons_iff.1 h).resolve_left (not_apart_of_place? ha hb)

/-- An edit at the very place parts from no other. -/
theorem eq_singleton_of_path_nil {edits : List Edit} (hparts : edits.Pairwise Parts) (he : e ∈ edits)
    (hpath : e.path = []) : edits = [e] := by
  obtain ⟨front, back, rfl⟩ := List.append_of_mem he
  have hfront : front = [] := by
    refine List.eq_nil_iff_forall_not_mem.2 fun f hf => ?_
    have hdiverges : Diverges f.path e.path := (List.pairwise_append.1 hparts).2.2 f hf e List.mem_cons_self
    rw [hpath] at hdiverges
    exact not_diverges_nil_right _ hdiverges
  have hback : back = [] := by
    refine List.eq_nil_iff_forall_not_mem.2 fun f hf => ?_
    have hdiverges : Diverges e.path f.path := (List.pairwise_cons.1 (List.pairwise_append.1 hparts).2.1).1 f hf
    rw [hpath] at hdiverges
    exact not_diverges_nil_left _ hdiverges
  rw [hfront, hback]
  rfl

/-- What there is to ask of the edits behind a place. -/
theorem filterMap_below? {n : Nat} {edits : List Edit} (hparts : edits.Pairwise Parts)
    (hwrites : ∀ e ∈ edits, e.IsWrite) (hlength : ∀ e ∈ edits, e.path.length < n + 1) (node : Json) (place : Place) :
    (edits.filterMap (below? node place)).Pairwise Parts ∧
      (∀ e ∈ edits.filterMap (below? node place), e.IsWrite) ∧
      ∀ e ∈ edits.filterMap (below? node place), e.path.length < n := by
  refine ⟨hparts.filterMap _ fun e f h e' he f' hf => h.below he hf, ?_, length_lt_of_mem_filterMap hlength⟩
  intro e' h
  obtain ⟨e, he, hb⟩ := List.mem_filterMap.1 h
  obtain ⟨key, -, -, hoperand⟩ := Json.exists_of_below? hb
  obtain ⟨json, hjson⟩ := hwrites e he
  exact ⟨json, hoperand.trans hjson⟩

theorem isKeyed_of_mem_filterMap {edits : List Edit} (h : ∀ e ∈ edits, e.IsKeyed) :
    ∀ e ∈ edits.filterMap (below? node place), e.IsKeyed := by
  intro e' he' segment hsegment
  obtain ⟨e, he, hb⟩ := List.mem_filterMap.1 he'
  obtain ⟨key, hpath, -, -⟩ := Json.exists_of_below? hb
  refine h e he segment ?_
  rw [hpath]
  exact List.mem_cons_of_mem _ hsegment

end Edit

namespace Json

variable {node : Json} {edits others : List Edit}

/-- In an array made for one segment the writes succeed only if they are all for indices. -/
theorem isSome_arrayIndex?_of_throughout {a b : String} {q : List String} {e : Edit}
    (hindex : (arrayIndex? a).isSome = true) (hpath : ∀ e ∈ edits, e.path ≠ [])
    (ha : Throughout edited Admits (emptyFor a) edits) (he : e ∈ edits) (hwrite : e.IsWrite) (hq : e.path = b :: q) :
    (arrayIndex? b).isSome = true := by
  obtain ⟨key, rest, place, hkey, hplace⟩ :=
    exists_place?_of_throughout (isContainer_emptyFor a) hpath ha e he hwrite
  rw [hq] at hkey
  cases hkey
  rw [emptyFor, hindex] at hplace
  obtain ⟨i, hi, -⟩ := Option.map_eq_some_iff.1 hplace
  rw [hi]
  rfl

/-- Writes that all succeed in two orders go into one container: the one that stands there, or an empty one of the
kind that either order makes. -/
theorem exists_container_of_perm {slot vacant : Option Json} (hperm : edits.Perm others) (hne : edits ≠ [])
    (hwrites : ∀ e ∈ edits, e.IsWrite) (hpath : ∀ e ∈ edits, e.path ≠ [])
    (hfit : Throughout (Edit.onSlot vacant) Edit.FitsSlot slot edits)
    (hfit' : Throughout (Edit.onSlot vacant) Edit.FitsSlot slot others) :
    ∃ node : Json, node.isContainer = true ∧
      (edits.foldl (Edit.onSlot vacant) slot = edits.foldl (Edit.onSlot vacant) (some node) ∧
        Throughout edited Takes node edits) ∧
      others.foldl (Edit.onSlot vacant) slot = others.foldl (Edit.onSlot vacant) (some node) ∧
        Throughout edited Takes node others := by
  have hpath' : ∀ e ∈ others, e.path ≠ [] := fun e he => hpath e (hperm.mem_iff.2 he)
  rcases container_or_vacant slot with ⟨node, rfl, hc⟩ | hvacant
  · exact ⟨node, hc, ⟨rfl, (throughout_onSlot_some vacant hc hpath).1 hfit⟩, rfl,
      (throughout_onSlot_some vacant hc hpath').1 hfit'⟩
  · obtain ⟨e, edits, rfl⟩ := List.exists_cons_of_ne_nil hne
    obtain ⟨f, others, rfl⟩ := List.exists_cons_of_ne_nil (List.ne_nil_of_mem (hperm.mem_iff.1 List.mem_cons_self))
    have he : e ∈ f :: others := hperm.mem_iff.1 List.mem_cons_self
    have hf : f ∈ e :: edits := hperm.mem_iff.2 List.mem_cons_self
    obtain ⟨a, p, hp⟩ := List.exists_cons_of_ne_nil (hpath e List.mem_cons_self)
    obtain ⟨b, q, hq⟩ := List.exists_cons_of_ne_nil (hpath f hf)
    obtain ⟨hfold, hiff⟩ := foldl_onSlot_of_vacant hvacant (hwrites e List.mem_cons_self) hp vacant edits
    obtain ⟨hfold', hiff'⟩ := foldl_onSlot_of_vacant hvacant (hwrites f hf) hq vacant others
    have htakes := (throughout_onSlot_some vacant (isContainer_emptyFor a) hpath).1 (hiff.1 hfit)
    have htakes' := (throughout_onSlot_some vacant (isContainer_emptyFor b) hpath').1 (hiff'.1 hfit')
    -- an array made for the one first segment takes the other, so that this one makes an array too
    have hkind : (arrayIndex? a).isSome = (arrayIndex? b).isSome := by
      rw [Bool.eq_iff_iff]
      constructor
      · intro hindex
        exact isSome_arrayIndex?_of_throughout hindex hpath
          ((throughout_takes_iff (isContainer_emptyFor a) hpath).1 htakes).1 hf (hwrites f hf) hq
      · intro hindex
        exact isSome_arrayIndex?_of_throughout hindex hpath'
          ((throughout_takes_iff (isContainer_emptyFor b) hpath').1 htakes').1 he (hwrites e List.mem_cons_self) hp
    have hsame : emptyFor b = emptyFor a := by rw [emptyFor, emptyFor, hkind]
    rw [hsame] at hfold' htakes'
    exact ⟨emptyFor a, isContainer_emptyFor a, ⟨hfold, htakes⟩, hfold', htakes'⟩

/-! ## Orders of writes -/

/-- Edits that succeed in a container in two orders leave alike containers, if those of each place do. -/
theorem alike_of_takes (hperm : edits.Perm others) (hc : node.isContainer = true) (hpath : ∀ e ∈ edits, e.path ≠ [])
    (htakes : Throughout edited Takes node edits) (htakes' : Throughout edited Takes node others)
    (h : ∀ place,
      Throughout (Edit.onSlot node.vacant) Edit.FitsSlot (node.held place) (edits.filterMap (Edit.below? node place)) →
      Throughout (Edit.onSlot node.vacant) Edit.FitsSlot (node.held place) (others.filterMap (Edit.below? node place)) →
      Option.Rel Alike
        ((edits.filterMap (Edit.below? node place)).foldl (Edit.onSlot node.vacant) (node.held place))
        ((others.filterMap (Edit.below? node place)).foldl (Edit.onSlot node.vacant) (node.held place))) :
    (edits.foldl edited node).Alike (others.foldl edited node) := by
  have hpath' : ∀ e ∈ others, e.path ≠ [] := fun e he => hpath e (hperm.mem_iff.2 he)
  obtain ⟨ha, hslots⟩ := (throughout_takes_iff hc hpath).1 htakes
  obtain ⟨ha', hslots'⟩ := (throughout_takes_iff hc hpath').1 htakes'
  refine alike_of_held ?_ ?_ fun place => ?_
  · rw [face_foldl_edited hc hpath ha, face_foldl_edited hc hpath' ha']
  · refine eq_of_forall_ge_iff fun length => ?_
    rw [span_foldl_edited_le_iff length hc hpath ha, span_foldl_edited_le_iff length hc hpath' ha']
    simp only [hperm.mem_iff]
  · rw [held_foldl_edited place hc hpath ha, held_foldl_edited place hc hpath' ha']
    exact h place (hslots place) (hslots' place)

/-- Writes along diverging paths that all succeed in a slot in two orders leave alike values there. -/
theorem rel_alike_of_perm : ∀ (n : Nat) {edits others : List Edit} {vacant slot : Option Json},
    edits.Perm others → edits.Pairwise Edit.Parts → (∀ e ∈ edits, e.IsWrite) → (∀ e ∈ edits, e.path.length < n) →
    Throughout (Edit.onSlot vacant) Edit.FitsSlot slot edits →
    Throughout (Edit.onSlot vacant) Edit.FitsSlot slot others →
    Option.Rel Alike (edits.foldl (Edit.onSlot vacant) slot) (others.foldl (Edit.onSlot vacant) slot) := by
  intro n
  induction n with
  | zero =>
    intro edits others vacant slot hperm _ _ hlength _ _
    rw [Edit.eq_nil_of_length_lt_zero hlength] at hperm ⊢
    rw [List.nil_perm.1 hperm]
    exact rel_alike_refl _
  | succ n ih =>
    intro edits others vacant slot hperm hparts hwrites hlength hfit hfit'
    by_cases hnil : ∃ e ∈ edits, e.path = []
    · obtain ⟨e, he, hpath⟩ := hnil
      rw [Edit.eq_singleton_of_path_nil hparts he hpath] at hperm ⊢
      rw [List.singleton_perm.1 hperm]
      exact rel_alike_refl _
    by_cases hne : edits = []
    · subst hne
      rw [List.nil_perm.1 hperm]
      exact rel_alike_refl _
    have hpath : ∀ e ∈ edits, e.path ≠ [] := fun e he hp => hnil ⟨e, he, hp⟩
    have hpath' : ∀ e ∈ others, e.path ≠ [] := fun e he => hpath e (hperm.mem_iff.2 he)
    obtain ⟨node, hc, ⟨hfold, htakes⟩, hfold', htakes'⟩ :=
      exists_container_of_perm hperm hne hwrites hpath hfit hfit'
    rw [hfold, hfold', foldl_onSlot_some vacant hc hpath ((throughout_takes_iff hc hpath).1 htakes).1,
      foldl_onSlot_some vacant hc hpath' ((throughout_takes_iff hc hpath').1 htakes').1]
    refine .some (alike_of_takes hperm hc hpath htakes htakes' fun place => ?_)
    obtain ⟨hparts, hwrites, hlength⟩ := Edit.filterMap_below? hparts hwrites hlength node place
    exact ih (hperm.filterMap _) hparts hwrites hlength

/-- Writes along diverging paths that all succeed in two orders leave alike trees. -/
theorem alike_of_writes (hperm : edits.Perm others) (hparts : edits.Pairwise Edit.Parts)
    (hwrites : ∀ e ∈ edits, e.IsWrite) (hpath : ∀ e ∈ edits, e.path ≠ [])
    (htakes : Throughout edited Takes node edits) (htakes' : Throughout edited Takes node others) :
    (edits.foldl edited node).Alike (others.foldl edited node) := by
  obtain ⟨n, hn⟩ := Edit.exists_length_lt edits
  have hlength : ∀ e ∈ edits, e.path.length < n + 1 := fun e he => Nat.lt_succ_of_lt (hn e he)
  have hcontainer : ∀ {node : Json}, node.isContainer = true → Throughout edited Takes node edits →
      Throughout edited Takes node others → (edits.foldl edited node).Alike (others.foldl edited node) := by
    intro node hc htakes htakes'
    refine alike_of_takes hperm hc hpath htakes htakes' fun place => ?_
    obtain ⟨hparts, hwrites, hlength⟩ := Edit.filterMap_below? hparts hwrites hlength node place
    exact rel_alike_of_perm _ (hperm.filterMap _) hparts hwrites hlength
  cases hc : node.isContainer with
  | true => exact hcontainer hc htakes htakes'
  | false =>
    -- the first write makes the tree an object, whichever it is
    rcases edits with _ | ⟨e, edits⟩
    · rw [List.nil_perm.1 hperm]
    rcases others with _ | ⟨f, others⟩
    · cases List.perm_nil.1 hperm
    have hf : f ∈ e :: edits := hperm.mem_iff.2 List.mem_cons_self
    obtain ⟨hfold, hiff⟩ := foldl_edited_of_scalar hc (hpath e List.mem_cons_self) (hwrites e List.mem_cons_self) edits
    obtain ⟨hfold', hiff'⟩ := foldl_edited_of_scalar hc (hpath f hf) (hwrites f hf) others
    rw [hfold, hfold']
    exact hcontainer rfl (hiff.1 htakes) (hiff'.1 htakes')

/-- Two values written along diverging paths, in both orders with success, leave trees that are equal but
for the order of members. -/
theorem write_comm_of_diverges {root v w left left' right right' : Json} {p q : List String} (hd : Diverges p q)
    (hp : root.write p v = ⟨left, none⟩) (hpq : left.write q w = ⟨left', none⟩)
    (hq : root.write q w = ⟨right, none⟩) (hqp : right.write p v = ⟨right', none⟩) : left'.Alike right' := by
  have hpath : ∀ e ∈ ([⟨p, .value v⟩, ⟨q, .value w⟩] : List Edit), e.path ≠ [] := by
    simp only [List.forall_mem_cons, List.not_mem_nil, false_imp_iff, implies_true, and_true]
    constructor
    · rintro rfl
      exact not_diverges_nil_left _ hd
    · rintro rfl
      exact not_diverges_nil_right _ hd
  have hparts : ([⟨p, .value v⟩, ⟨q, .value w⟩] : List Edit).Pairwise Edit.Parts := by
    simpa [Edit.Parts] using hd
  have hleft : Throughout edited Takes root [⟨p, .value v⟩, ⟨q, .value w⟩] := by
    simp [Throughout, Takes, edited, hp, hpq]
  have hright : Throughout edited Takes root [⟨q, .value w⟩, ⟨p, .value v⟩] := by
    simp [Throughout, Takes, edited, hq, hqp]
  have halike := alike_of_writes (.swap _ _ _) hparts (by simp [Edit.IsWrite]) hpath hleft hright
  simpa [edited, hp, hpq, hq, hqp] using halike

/-- In place of a string comes an array, filled up for its third item, and in this an object whose members
stand in the order of the writes. -/
theorem write_comm_of_diverges_in_item :
    let p := ["a", "2", "x"]
    let q := ["a", "02", "y"]
    let root : Json := .object [("a", .string "s")]
    let tree (members : List (String × Json)) : Json := .object [("a", .array [.null, .null, .object members])]
    Diverges p q ∧ root.write p (.bool true) = ⟨tree [("x", .bool true)], none⟩ ∧
      root.write q .null = ⟨tree [("y", .null)], none⟩ ∧
      (tree [("x", .bool true), ("y", .null)]).Alike (tree [("y", .null), ("x", .bool true)]) := by
  intro p q root tree
  have hd : Diverges p q := by decide
  have hp : root.write p (.bool true) = ⟨tree [("x", .bool true)], none⟩ := rfl
  have hq : root.write q .null = ⟨tree [("y", .null)], none⟩ := rfl
  exact ⟨hd, hp, hq, write_comm_of_diverges hd hp rfl hq rfl⟩

/-! ## On an empty tree -/

/-- What a path leads to stays through writes along paths that diverge from it. -/
theorem get?_foldl_edited_of_parts {value : Json} {e : Edit} : ∀ {edits : List Edit} {node : Json},
    (∀ f ∈ edits, e.Parts f) → (∀ f ∈ edits, f.IsWrite) → node.get? e.path = some value →
    (edits.foldl edited node).get? e.path = some value
  | [], _, _, _, h => h
  | edit :: rest, node, hparts, hwrites, h => by
    obtain ⟨hedit, hparts⟩ := List.forall_mem_cons.1 hparts
    obtain ⟨⟨json, hjson⟩, hwrites⟩ := List.forall_mem_cons.1 hwrites
    rw [List.foldl_cons]
    refine get?_foldl_edited_of_parts hparts hwrites ?_
    rw [edited, hjson]
    exact get?_write_of_diverges json (Diverges.symm hedit) h

/-- Of writes along diverging paths that all succeed, each is read afterwards. -/
theorem get?_foldl_edited {value : Json} {e : Edit} (he : e.operand = .value value) :
    ∀ {edits : List Edit} {node : Json}, edits.Pairwise Edit.Parts → (∀ e ∈ edits, e.IsWrite) →
      Throughout edited Takes node edits → e ∈ edits → (edits.foldl edited node).get? e.path = some value
  | edit :: rest, node, hparts, hwrites, htakes, hmem => by
    obtain ⟨hedit, hrest⟩ := List.pairwise_cons.1 hparts
    have hlater := (List.forall_mem_cons.1 hwrites).2
    rw [List.foldl_cons]
    rcases List.mem_cons.1 hmem with rfl | hmem
    · have hget : (node.edited e).get? e.path = some value := by
        rw [edited, he]
        exact get?_tree_write (htakes.1 value he)
      exact get?_foldl_edited_of_parts hedit hlater hget
    · exact get?_foldl_edited he hrest hlater htakes.2 hmem

/-- An object admits every edit. -/
theorem throughout_admits_object : ∀ {edits : List Edit} {node : Json}, node.face = object [] →
    (∀ e ∈ edits, e.path ≠ []) → Throughout edited Admits node edits
  | [], _, _, _ => trivial
  | edit :: rest, node, hface, hpath => by
    obtain ⟨hedit, hrest⟩ := List.forall_mem_cons.1 hpath
    have hc : node.isContainer = true := by cases node <;> cases hface; rfl
    have ha : node.Admits edit := by
      intro _ key _ _ _
      cases node <;> cases hface
      rfl
    exact ⟨ha, throughout_admits_object ((face_edited hc hedit ha).trans hface) hrest⟩

theorem throughout_takes_empty (hpath : ∀ e ∈ edits, e.path ≠ [])
    (h : ∀ place, Throughout (Edit.onSlot none) Edit.FitsSlot none
      (edits.filterMap (Edit.below? (object []) place))) : Throughout edited Takes (object []) edits := by
  refine (throughout_takes_iff rfl hpath).2 ⟨throughout_admits_object rfl hpath, fun place => ?_⟩
  have hheld : (object []).held place = none := by cases place <;> rfl
  rw [hheld]
  exact h place

/-- Where nothing stands, writes along diverging keys all succeed. -/
theorem throughout_fitsSlot_none : ∀ (n : Nat) {edits : List Edit}, edits.Pairwise Edit.Parts →
    (∀ e ∈ edits, e.IsWrite) → (∀ e ∈ edits, e.IsKeyed) → (∀ e ∈ edits, e.path.length < n) →
    Throughout (Edit.onSlot none) Edit.FitsSlot none edits := by
  intro n
  induction n with
  | zero =>
    intro edits _ _ _ hlength
    rw [Edit.eq_nil_of_length_lt_zero hlength]
    trivial
  | succ n ih =>
    intro edits hparts hwrites hkeyed hlength
    by_cases hnil : ∃ e ∈ edits, e.path = []
    · obtain ⟨e, he, hpath⟩ := hnil
      rw [Edit.eq_singleton_of_path_nil hparts he hpath]
      refine ⟨?_, trivial⟩
      intro json _
      rw [hpath]
      rfl
    have hpath : ∀ e ∈ edits, e.path ≠ [] := fun e he hp => hnil ⟨e, he, hp⟩
    cases edits with
    | nil => trivial
    | cons e edits =>
      obtain ⟨key, rest, hp⟩ := List.exists_cons_of_ne_nil (hpath e List.mem_cons_self)
      have hkey : arrayIndex? key = none := hkeyed e List.mem_cons_self key (by rw [hp]; exact List.mem_cons_self)
      have hempty : emptyFor key = object [] := by rw [emptyFor, hkey]; rfl
      have hslot : ∀ node, (none : Option Json) = some node → node.isContainer = false := fun _ h => by cases h
      rw [(foldl_onSlot_of_vacant hslot (hwrites e List.mem_cons_self) hp none edits).2, hempty,
        throughout_onSlot_some none rfl hpath]
      refine throughout_takes_empty hpath fun place => ?_
      obtain ⟨hparts, hwrites, hlength⟩ := Edit.filterMap_below? hparts hwrites hlength (object []) place
      exact ih hparts hwrites (Edit.isKeyed_of_mem_filterMap hkeyed) hlength

/-- On an empty tree, writes along diverging keys all succeed. -/
theorem throughout_takes_of_isKeyed (hparts : edits.Pairwise Edit.Parts) (hwrites : ∀ e ∈ edits, e.IsWrite)
    (hkeyed : ∀ e ∈ edits, e.IsKeyed) (hpath : ∀ e ∈ edits, e.path ≠ []) :
    Throughout edited Takes (object []) edits := by
  obtain ⟨n, hn⟩ := Edit.exists_length_lt edits
  have hlength : ∀ e ∈ edits, e.path.length < n + 1 := fun e he => Nat.lt_succ_of_lt (hn e he)
  refine throughout_takes_empty hpath fun place => ?_
  obtain ⟨hparts, hwrites, hlength⟩ := Edit.filterMap_below? hparts hwrites hlength (object []) place
  exact throughout_fitsSlot_none n hparts hwrites (Edit.isKeyed_of_mem_filterMap hkeyed) hlength

end Json

end StateScript
