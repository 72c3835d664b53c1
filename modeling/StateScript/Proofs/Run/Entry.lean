/-
An entry put into a collection and taken out of it again. Where an object has no member under a key, or an
array has the place that a number counts to, an entry that a command puts there is found by a removal with the
same argument, and the two commands together leave the state as it was, the order of the members included.

The two commands have shape tests of their own, and count the place in lists of different lengths. The removal
looks for a tuple where the insertion does not, so the array with the entry must not have become one. A
command is said here to turn one value at its path into another; a second one that turns it back restores the
tree by the lens laws, whatever containers the path goes through.
-/
import StateScript.Proofs.Binary64.Whole
import StateScript.Proofs.Run.Revision

namespace StateScript

/-! ## There and back -/

/-- The command is applied where the one value stands at its path, and leaves the tree that a write of the
other value there leaves. -/
def Command.Turns (command : Command) (path : Path) (old new : Json) : Prop :=
  ∀ root : Json, root.get? path.segments = some old →
    ∃ root', root.write path.segments new = ⟨root', none⟩ ∧ command.onRoot path root = ⟨root', .applied⟩

/-- A value turned into another and back is restored, and the state with it. -/
theorem Run.ofCommands_of_turns {there back : Command} {path : Path} (hthere : there.path? = some path)
    (hback : back.path? = some path) {old new : Json} (hturns : there.Turns path old new)
    (hreturns : back.Turns path new old) {rootKey : String} {members : List (String × Json)}
    (hget : (Json.object members).get? (rootKey :: path.segments) = some old) :
    ofCommands rootKey [there, back] (.object members) =
      ⟨.object members, [⟨there, .applied⟩, ⟨back, .applied⟩]⟩ := by
  obtain ⟨root, hroot, hold⟩ := Option.bind_eq_some_iff.1 hget
  obtain ⟨root', hwrite, heffect⟩ := hturns root hold
  have herror : (root.write path.segments new).error? = none := by rw [hwrite]
  have hnew := Json.get?_tree_write herror
  have hsecond := Json.write_tree_write old herror
  rw [hwrite] at hnew hsecond
  obtain ⟨root'', hwrite', heffect'⟩ := hreturns root' hnew
  obtain rfl : root'' = root := by
    rw [hwrite', Json.write_of_get? hold] at hsecond
    exact congrArg Json.Written.tree hsecond
  simp only [ofCommands, Command.onState_object hthere, Command.onState_object hback, rootTree_of_get? hroot,
    rootTree_put, heffect, heffect', Members.put_put, Members.put_of_get? hroot]

namespace Command

variable {verb : Verb} {p k v : String} {path : Path} {old new : Json}

/-- An entry put into a collection that takes it turns the collection into the one with the entry. -/
theorem turns_of_withEntry? (hverb : verb = .assign ∨ verb = .insert)
    (h : Json.withEntry? (.ofText k.toList) (.ofText v.toList) old = some new) :
    (⟨verb, [p, k, v]⟩ : Command).Turns path old new := by
  intro root hget
  obtain ⟨root', hwrite, heffect⟩ := Path.assignEntry_of_get? hget (.ofText k.toList) (.ofText v.toList)
  rw [h, Option.getD_some] at hwrite
  refine ⟨root', hwrite, ?_⟩
  rw [(onRoot_two_operands path root hverb rfl).1]
  exact heffect

/-- A removal turns a collection into the one without the entry. -/
theorem turns_of_withoutEntry (h : Json.withoutEntry (.ofText k.toList) old = new) :
    (⟨.remove, [p, k]⟩ : Command).Turns path old new := by
  intro root hget
  rw [(onRoot_remove_operand path root rfl rfl).1, ← h]
  exact Path.update_of_get? hget _

end Command

/-! ## Entries -/

/-- A number whose whole part is a place of the list, or the end, counts to it. -/
theorem Number.spliceIndex_of_le {n : Number} {length : Nat} (hn : 0 ≤ n.truncate) (hle : n.truncate ≤ length) :
    n.spliceIndex length = n.truncate.toNat := by
  rw [spliceIndex, if_neg (Int.not_lt.2 hn)]
  omega

/-- A new member goes to the end of an object, and leaves it as it was when it goes. -/
theorem Json.withoutEntry_put {key : Operand} {members : List (String × Json)}
    (h : key.keyText ∉ Members.keys members) (value : Json) :
    withoutEntry key (object (Members.put key.keyText value members)) = object members := by
  rw [withoutEntry, Members.erase_put, Members.erase_of_not_mem h]

/-- An item inserted at a place is the one that is removed from the place, though the list is longer then. -/
theorem Json.withoutEntry_insertIdx {key : Operand} {n : Number} (hn : key.number? = some n) {items : List Json}
    (hpos : 0 ≤ n.truncate) (hle : n.truncate ≤ items.length) {value : Json}
    (htuple : isTuple (array (items.insertIdx n.truncate.toNat value)) = false) :
    withoutEntry key (array (items.insertIdx n.truncate.toNat value)) = array items := by
  have hlength : (items.insertIdx n.truncate.toNat value).length = items.length + 1 :=
    List.length_insertIdx_of_le_length (by omega) _
  have hplace : n.spliceIndex (items.length + 1) = n.truncate.toNat := Number.spliceIndex_of_le hpos (by omega)
  show onList (withoutItem key) _ = _
  rw [onList_of_not_isTuple htuple, withoutItem, hn, hlength]
  simp only [hplace, List.eraseIdx_insertIdx_self]

namespace Run

/-- An entry put into an object under a new key, or before a place of an array of fewer than 2^53 items, and
taken out by the same argument leaves the state as it was, unless the array becomes a tuple in between. Both
commands are applied, and counted in binary64 both count to the same place. -/
theorem ofCommands_entry_and_back (rootKey : String) (members : List (String × Json)) {verb : Verb}
    (hverb : verb = .assign ∨ verb = .insert) (p k v : String) (path : Path)
    (hpath : (⟨verb, [p, k, v]⟩ : Command).path? = some path) :
    let commands : List Command := [⟨verb, [p, k, v]⟩, ⟨.remove, [p, k]⟩]
    let key := Operand.ofText k.toList
    let value := (Operand.ofText v.toList).toJson
    let restored : Run := ⟨.object members, commands.map (⟨·, .applied⟩)⟩
    (∀ inner, (Json.object members).get? (rootKey :: path.segments) = some (.object inner) →
      key.keyText ∉ Members.keys inner → ofCommands rootKey commands (.object members) = restored) ∧
    ∀ items n, (Json.object members).get? (rootKey :: path.segments) = some (.array items) →
      items.length < 0x20000000000000 → key.number? = some n → 0 ≤ n.truncate → n.truncate ≤ items.length →
      Json.isTuple (.array (items.insertIdx n.truncate.toNat value)) = false →
      n.roundedPlace items.length = n.truncate.toNat ∧ n.roundedPlace (items.length + 1) = n.truncate.toNat ∧
        ofCommands rootKey commands (.object members) = restored := by
  intro commands key value restored
  have hback : (⟨.remove, [p, k]⟩ : Command).path? = some path := hpath
  constructor
  · intro inner hget hnew
    exact ofCommands_of_turns hpath hback (Command.turns_of_withEntry? hverb rfl)
      (Command.turns_of_withoutEntry (Json.withoutEntry_put hnew value)) hget
  · intro items n hget hlength hn hpos hle htuple
    have hentry : Json.withEntry? key (Operand.ofText v.toList) (.array items) =
        some (.array (items.insertIdx n.truncate.toNat value)) := by
      rw [Json.withEntry?, hn, Option.map_some, Number.spliceIndex_of_le hpos hle]
    refine ⟨?_, ?_, ?_⟩
    · rw [Number.roundedPlace_eq_spliceIndex n hlength, Number.spliceIndex_of_le hpos hle]
    · rw [Number.roundedPlace_of_nonneg hpos hlength, Number.spliceIndex_of_le hpos (by omega)]
    · exact ofCommands_of_turns hpath hback (Command.turns_of_withEntry? hverb hentry)
        (Command.turns_of_withoutEntry (Json.withoutEntry_insertIdx hn hpos hle htuple)) hget

/-- The key `1,,true` of nested arrays comes into an object and goes; the place 2.0 of a tuple's own array, its
end, is filled and emptied. -/
theorem ofCommands_entry_and_back_nested_key :
    let members : List (String × Json) :=
      [("s", .object [("m", .object [("1", .null)]), ("t", .array [.array [], .string "things"])])]
    let keyed : List Command :=
      [⟨.assign, ["m", "[1, [null, true]]", "undefined"]⟩, ⟨.remove, ["m", "[1, [null, true]]"]⟩]
    let counted : List Command := [⟨.insert, ["'t'", "2.0", "[]"]⟩, ⟨.remove, ["'t'", "2.0"]⟩]
    (Operand.ofText "[1, [null, true]]".toList).keyText = "1,,true" ∧
      ofCommands "s" keyed (.object members) = ⟨.object members, keyed.map (⟨·, .applied⟩)⟩ ∧
      ofCommands "s" counted (.object members) = ⟨.object members, counted.map (⟨·, .applied⟩)⟩ := by
  intro members keyed counted
  have hkey : (Operand.ofText "[1, [null, true]]".toList).keyText = "1,,true" := by decide +kernel
  have hnew : (Operand.ofText "[1, [null, true]]".toList).keyText ∉ Members.keys [("1", Json.null)] := by
    rw [hkey]
    decide
  have hobject : (⟨.assign, ["m", "[1, [null, true]]", "undefined"]⟩ : Command).path? =
      some ⟨"m", ["m"], by decide⟩ := by decide +kernel
  have harray : (⟨.insert, ["'t'", "2.0", "[]"]⟩ : Command).path? = some ⟨"t", ["t"], by decide⟩ := by decide +kernel
  have hplace : (Operand.ofText "2.0".toList).number? = some (.float ⟨false, 0x10000000000000, -51, by decide⟩) := by
    decide +kernel
  refine ⟨hkey, ?_, ?_⟩
  · exact (ofCommands_entry_and_back "s" members (.inl rfl) _ _ _ _ hobject).1 _ rfl hnew
  · exact ((ofCommands_entry_and_back "s" members (.inr rfl) _ _ _ _ harray).2 _ _ rfl (by decide) hplace
      (by decide) (by decide) (by decide)).2.2

end Run

end StateScript
