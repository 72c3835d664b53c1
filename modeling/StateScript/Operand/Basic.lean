/-
Operands: the typed arguments of a command. An operand is a JSON value, or `undefined`, which no JSON
value is; where a value must stand, null stands for it.
-/
import StateScript.Json.Basic

namespace StateScript

/-- A typed argument. -/
inductive Operand where
  | undefined
  | value (json : Json)

deriving instance DecidableEq for Operand

namespace Operand

/-- The JSON value of an operand, null for `undefined`. -/
def toJson : Operand → Json
  | undefined => .null
  | value json => json

/-- The JSON value of an operand other than `undefined`. -/
def json? : Operand → Option Json
  | undefined => none
  | value json => some json

/-- The number that an operand is. -/
def number? : Operand → Option Number
  | value (.number n) => some n
  | _ => none

/-- The text of an operand as a key. -/
def keyText : Operand → String
  | undefined => "undefined"
  | value json => json.keyText

end Operand

end StateScript
