/-
Merging objects. The members of the second go into the first: two objects under one key are merged in
turn, and in every other case the second's value stands. Keys keep the order of the first, and new
ones follow in the order of the second.
-/
import StateScript.Json.Basic

namespace StateScript.Json

mutual

/-- The value that stands where `incoming` comes upon an earlier value. -/
def mergedWith (earlier? : Option Json) : (incoming : Json) → Json
  | object incoming =>
    match earlier? with
    | some (object earlier) => object (mergeMembers earlier incoming)
    | _ => object incoming
  | incoming => incoming
termination_by structural v => v

/-- The members of `target` with further members merged into them. -/
def mergeMembers (target : List (String × Json)) : (incoming : List (String × Json)) → List (String × Json)
  | [] => target
  | (k, v) :: rest => mergeMembers (Members.put k (mergedWith (Members.get? k target) v) target) rest
termination_by structural ms => ms

end

end StateScript.Json
