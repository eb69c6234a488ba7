import ActiveMarkup.Value.Basic
import ActiveMarkup.Decimal.Layout
import ActiveMarkup.Text.Quoted
set_option autoImplicit false

namespace ActiveMarkup.Value

mutual

def toText : Value → String
  | undefined => "undefined"
  | null => "null"
  | bool b => if b then "true" else "false"
  | number x => Decimal.shown.text x
  | text s => s
  | array _ items => ",".intercalate (itemTexts items)
  | object .. => "[object Object]"
  | node _ => "[object Element]"

def itemTexts : List Value → List String
  | [] => []
  | v :: rest => (if v.isNullish then "" else toText v) :: itemTexts rest

end

mutual

def toQuoted : Value → String
  | undefined => "undefined"
  | null => "null"
  | bool b => if b then "true" else "false"
  | number x => Decimal.shown.text x
  | text s => Text.quoted s
  | array _ items => "[" ++ ", ".intercalate (quotedItems items) ++ "]"
  | object _ fields => "\x7b" ++ ", ".intercalate (quotedFields fields) ++ "\x7d"
  | node id => "Node(" ++ id.label ++ ")"

def quotedItems : List Value → List String
  | [] => []
  | v :: rest => toQuoted v :: quotedItems rest

def quotedFields : List (String × Value) → List String
  | [] => []
  | (k, v) :: rest => (Text.quoted k ++ ": " ++ toQuoted v) :: quotedFields rest

end

end ActiveMarkup.Value
