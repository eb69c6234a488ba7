import ActiveMarkup.Expr.Error
import ActiveMarkup.Value.Equality
import ActiveMarkup.Decimal.Numeral
set_option autoImplicit false

namespace ActiveMarkup

/-- Evaluation: it draws identities from a supply and may fail. -/
abbrev Eval := StateT Ref (Except ExprError)

def freshRef : Eval Ref :=
  fun next => .ok (next, next + 1)

namespace Value

def isTextual : Value → Bool
  | text _ => true
  | v => v.isStructured

/-- The sum: concatenation if either side is textual, and otherwise that of the numbers. -/
def sum (l r : Value) : Value :=
  if l.isTextual || r.isTextual then text (l.toText ++ r.toText)
  else number (l.toNumber + r.toNumber)

def less (l r : Value) : Bool :=
  match l, r with
  | text s, text t => s < t
  | l, r => l.toNumber < r.toNumber

/-- Whether one value is at most another. No number is at most NaN. -/
def atMost (l r : Value) : Bool :=
  match l, r with
  | text s, text t => s ≤ t
  | l, r => l.toNumber ≤ r.toNumber

def itemAt (items : List Value) (x : Float) : Value :=
  match Decimal.toNat? x with
  | some n => items[n]?.getD undefined
  | none => undefined

def charAt (s : String) (x : Float) : Value :=
  match Decimal.toNat? x with
  | some n =>
    match s.toList[n]? with
    | some c => text c.toString
    | none => undefined
  | none => undefined

/-- The member of a value under a name. An array has its length and, under a name that spells a
number, its items; a text has its length; an object has its fields. -/
def member (v : Value) (name : String) : Except ExprError Value :=
  match v with
  | undefined | null => .error (.memberOfNullish name v)
  | node _ => .error (.memberOfNode name)
  | object _ fields => .ok ((Table.find? fields name).getD undefined)
  | text s =>
    .ok (if name == "length" then number (Float.ofNat s.length) else undefined)
  | array _ items =>
    .ok (if name == "length" then number (Float.ofNat items.length)
      else
        match Decimal.readWhole? name.toList with
        | some x => itemAt items x
        | none => undefined)
  | bool _ | number _ => .ok undefined

/-- The item of a value at another value: a place in an array or a text, and otherwise the member
under the text of the index. -/
def item (v i : Value) : Except ExprError Value :=
  match v, i with
  | array _ items, number x => .ok (itemAt items x)
  | text s, number x => .ok (charAt s x)
  | v, i => v.member i.toText

end Value

def UnaryOp.apply (op : UnaryOp) (v : Value) : Value :=
  match op with
  | not => .bool !v.isTruthy
  | neg => .number (-v.toNumber)
  | plus => .number v.toNumber

/-- The value of a binary operator on two values. The two logical operators decide whether their
right side is evaluated at all, so they have no value on two values. -/
def BinaryOp.apply (op : BinaryOp) (l r : Value) : Except ExprError Value :=
  match op with
  | add => .ok (l.sum r)
  | sub => .ok (.number (l.toNumber - r.toNumber))
  | mul => .ok (.number (l.toNumber * r.toNumber))
  | div => .ok (.number (l.toNumber / r.toNumber))
  | rem => .ok (.number (Decimal.remainder l.toNumber r.toNumber))
  | lt => .ok (.bool (l.less r))
  | le => .ok (.bool (l.atMost r))
  | gt => .ok (.bool (r.less l))
  | ge => .ok (.bool (r.atMost l))
  | looseEq => .ok (.bool (l.looseEq r))
  | looseNe => .ok (.bool !(l.looseEq r))
  | strictEq => .ok (.bool (l.strictEq r))
  | strictNe => .ok (.bool !(l.strictEq r))
  | and | or => .error .eagerLogic

def valueOf (vars : Table Value) (name : String) : Except ExprError Value :=
  match Table.find? vars name with
  | some v => .ok v
  | none => .error (.undefinedVariable name)

namespace Expr

mutual

/-- The value of an expression. The operand that decides a logical operator is its value. -/
def eval (vars : Table Value) : Expr → Eval Value
  | literal v => pure v
  | .variable name => liftM (valueOf vars name)
  | array items => do
    let values ← evalAll vars items
    let ref ← freshRef
    pure (.array ref values)
  | unary op operand => do
    let v ← eval vars operand
    pure (op.apply v)
  | binary .and left right => do
    let l ← eval vars left
    if l.isTruthy then eval vars right else pure l
  | binary .or left right => do
    let l ← eval vars left
    if l.isTruthy then pure l else eval vars right
  | binary op left right => do
    let l ← eval vars left
    let r ← eval vars right
    liftM (op.apply l r)
  | member target name => do
    let v ← eval vars target
    liftM (v.member name)
  | index target i => do
    let v ← eval vars target
    let i ← eval vars i
    liftM (v.item i)

def evalAll (vars : Table Value) : List Expr → Eval (List Value)
  | [] => pure []
  | e :: rest => do
    let v ← eval vars e
    let vs ← evalAll vars rest
    pure (v :: vs)

end

end Expr

end ActiveMarkup
