import ActiveMarkup.Expr.Eval
import ActiveMarkup.Expr.Parser
import ActiveMarkup.Namespace
set_option autoImplicit false

namespace ActiveMarkup

namespace Stmt

/-- Run a statement. An assignment with an operator and a step read the variable after the right
side, and fail if it is not declared. -/
def execute (s : Stmt) (ns : Namespace) : Except ExprError Namespace :=
  match s with
  | assign name op e => do
    let (right, next) ← e.eval ns.vars ns.nextRef
    let value ←
      match op with
      | none => pure right
      | some op => do
        let current ← valueOf ns.vars name
        op.apply current right
    pure ({ ns with nextRef := next }.declare name value)
  | step name up => do
    let current ← valueOf ns.vars name
    pure (ns.declare name (.number (current.toNumber + if up then 1.0 else -1.0)))
  | expr e => do
    let (_, next) ← e.eval ns.vars ns.nextRef
    pure { ns with nextRef := next }

def executeAll : List Stmt → Namespace → Option ExprError × Namespace
  | [], ns => (none, ns)
  | s :: rest, ns =>
    match s.execute ns with
    | .ok ns => executeAll rest ns
    | .error e => (some e, ns)

end Stmt

namespace Namespace

def evaluate (ns : Namespace) (src : String) : Except ExprError (Value × Namespace) := do
  let e ← Expr.parse src
  let (v, next) ← e.eval ns.vars ns.nextRef
  pure (v, { ns with nextRef := next })

/-- Run the statements of a text; a text that is not made of statements has no effect. -/
def execute (ns : Namespace) (src : String) : Option ExprError × Namespace :=
  match Stmt.parseAll src with
  | .ok statements => Stmt.executeAll statements ns
  | .error e => (some e, ns)

/-- Whether a condition text holds. The blank text does not. -/
def holds (ns : Namespace) (src : String) : Except ExprError Bool :=
  if (Text.trim src.toList).isEmpty then .ok false
  else (ns.evaluate src).map fun (v, _) => v.isTruthy

def looksComputed (src : String) : Bool :=
  src.toList.any fun c => c == '+' || c == '-' || c == '*' || c == '/'

/-- What a value text stands for: the variable of exactly that name, the value of an expression
with an arithmetic sign in it, or the text itself. -/
def resolve (ns : Namespace) (src : String) : Value × Namespace :=
  match ns.lookup src with
  | some v => (v, ns)
  | none =>
    if looksComputed src then
      match ns.evaluate src with
      | .ok found => found
      | .error _ => (.text src, ns)
    else (.text src, ns)

end Namespace

end ActiveMarkup
