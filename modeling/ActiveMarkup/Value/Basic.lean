import ActiveMarkup.NodeId
import ActiveMarkup.Table
set_option autoImplicit false

namespace ActiveMarkup

abbrev Ref := Nat

inductive Value where
  | undefined
  | null
  | bool (b : Bool)
  | number (x : Float)
  | text (s : String)
  | array (ref : Ref) (items : List Value)
  | object (ref : Ref) (fields : List (String × Value))
  | node (id : NodeId)
deriving Inhabited

namespace Value

def kindName : Value → String
  | undefined => "undefined"
  | null => "null"
  | bool _ => "boolean"
  | number _ => "number"
  | text _ => "string"
  | array .. => "array"
  | object .. => "object"
  | node _ => "node"

def isNullish : Value → Bool
  | undefined | null => true
  | _ => false

/-- Whether a value has contents or a tree behind it, so that it takes part in concatenation and
comparison through its text. -/
def isStructured : Value → Bool
  | array .. | object .. | node _ => true
  | _ => false

/-- Whether a value counts as true. The absent values, `false`, zero, NaN and the empty text do
not; every array, object and node does. -/
def isTruthy : Value → Bool
  | undefined | null => false
  | bool b => b
  | number x => x != 0.0 && !x.isNaN
  | text s => !s.isEmpty
  | array .. | object .. | node _ => true

end Value

end ActiveMarkup
