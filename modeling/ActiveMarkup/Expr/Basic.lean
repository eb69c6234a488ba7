import ActiveMarkup.Expr.Token
import ActiveMarkup.Value.Printer
set_option autoImplicit false

namespace ActiveMarkup

inductive UnaryOp where
  | not | neg | plus
deriving DecidableEq, Repr

inductive BinaryOp where
  | add | sub | mul | div | rem
  | lt | le | gt | ge
  | looseEq | looseNe | strictEq | strictNe
  | and | or
deriving DecidableEq, Repr

inductive Expr where
  | literal (v : Value)
  | variable (name : String)
  | array (items : List Expr)
  | unary (op : UnaryOp) (operand : Expr)
  | binary (op : BinaryOp) (left right : Expr)
  | member (target : Expr) (name : String)
  | index (target index : Expr)
deriving Inhabited

/-- A statement: an assignment, plain or with an operator, a step by one up or down, or an
expression that is evaluated for nothing but its failure. -/
inductive Stmt where
  | assign (name : String) (op : Option BinaryOp) (value : Expr)
  | step (name : String) (up : Bool)
  | expr (e : Expr)

namespace UnaryOp

def symbol : UnaryOp → Symbol
  | not => .bang
  | neg => .minus
  | plus => .plus

def label : UnaryOp → String
  | not => "Not"
  | neg => "Neg"
  | plus => "Plus"

end UnaryOp

namespace BinaryOp

def symbol : BinaryOp → Symbol
  | add => .plus
  | sub => .minus
  | mul => .star
  | div => .slash
  | rem => .percent
  | lt => .less
  | le => .lessEqual
  | gt => .greater
  | ge => .greaterEqual
  | looseEq => .looseEqual
  | looseNe => .looseUnequal
  | strictEq => .strictEqual
  | strictNe => .strictUnequal
  | and => .both
  | or => .either

def label : BinaryOp → String
  | add => "Add"
  | sub => "Sub"
  | mul => "Mul"
  | div => "Div"
  | rem => "Rem"
  | lt => "Lt"
  | le => "Le"
  | gt => "Gt"
  | ge => "Ge"
  | looseEq => "LooseEq"
  | looseNe => "LooseNe"
  | strictEq => "StrictEq"
  | strictNe => "StrictNe"
  | and => "And"
  | or => "Or"

end BinaryOp

namespace Expr

def described (label : String) (fields : List (String × String)) : String :=
  label ++ " \x7b " ++ ", ".intercalate (fields.map fun (k, v) => k ++ ": " ++ v) ++ " \x7d"

mutual

def describe : Expr → String
  | literal v => "Literal(" ++ v.toQuoted ++ ")"
  | .variable name => "Variable(" ++ Text.quoted name ++ ")"
  | array items => "Array([" ++ ", ".intercalate (describeAll items) ++ "])"
  | unary op operand =>
    described "Unary" [("op", op.label), ("operand", describe operand)]
  | binary op left right =>
    described "Binary" [("op", op.label), ("left", describe left), ("right", describe right)]
  | member target name =>
    described "Member" [("target", describe target), ("name", Text.quoted name)]
  | index target i =>
    described "Index" [("target", describe target), ("index", describe i)]

def describeAll : List Expr → List String
  | [] => []
  | e :: rest => describe e :: describeAll rest

end

end Expr

end ActiveMarkup
