import ActiveMarkup.Value.Number
set_option autoImplicit false

namespace ActiveMarkup.Value

def strictEq : Value → Value → Bool
  | undefined, undefined => true
  | null, null => true
  | bool a, bool b => a == b
  | number a, number b => a == b
  | text a, text b => a == b
  | array a _, array b _ => a == b
  | object a _, object b _ => a == b
  | node a, node b => a == b
  | _, _ => false

def sameKind (a b : Value) : Bool :=
  a.kindName == b.kindName

def looseEq (a b : Value) : Bool :=
  if a.isNullish || b.isNullish then a.isNullish && b.isNullish
  else
    match a, b with
    | text s, text t => s == t
    | a, b =>
      if a.isStructured || b.isStructured then
        if sameKind a b then strictEq a b else toText a == toText b
      else toNumber a == toNumber b

mutual

def sameContents : Value → Value → Bool
  | array _ xs, b =>
    match b with
    | array _ ys => sameItems xs ys
    | _ => false
  | object _ fs, b =>
    match b with
    | object _ gs => fs.length == gs.length && fieldsWithin fs gs
    | _ => false
  | a, b => strictEq a b

def sameItems : List Value → List Value → Bool
  | [], ys => ys.isEmpty
  | x :: xs, ys =>
    match ys with
    | y :: ys => sameContents x y && sameItems xs ys
    | [] => false

def fieldsWithin : List (String × Value) → List (String × Value) → Bool
  | [], _ => true
  | (k, v) :: rest, gs =>
    (match Table.find? gs k with
      | some w => sameContents v w
      | none => false) && fieldsWithin rest gs

end

end ActiveMarkup.Value
