import ActiveMarkup.Directive
import ActiveMarkup.Document.Basic
import ActiveMarkup.Expr.Error
import ActiveMarkup.Host.Basic
set_option autoImplicit false

namespace ActiveMarkup

inductive DirectiveError where
  | invalidLiteral (name kind : String)
  | invalidArguments (function : String)
  | loopBudget (kind : Directive) (limit : Nat)
  | callDepth (depth limit : Nat)
  | interrupted
  | expr (e : ExprError)
  | document (e : DocumentError)

def DirectiveError.message : DirectiveError → String
  | invalidLiteral name kind =>
    "Variable '" ++ name ++ "' declared as " ++ kind ++ " has an invalid literal"
  | invalidArguments function => "Invalid arguments for '" ++ function ++ "'"
  | loopBudget kind limit =>
    kind.label ++ " exceeded the iteration budget of " ++ toString limit
  | callDepth depth limit =>
    "Stack overflow: call depth " ++ toString depth ++ " exceeds maximum " ++ toString limit
  | interrupted => "Execution interrupted"
  | expr e => e.message
  | document e => e.message

inductive EventTarget where
  | window
  | document
  | node (id : NodeId)
deriving DecidableEq, Repr

def EventTarget.label : EventTarget → String
  | window => "window"
  | document => "document"
  | node id => id.label

inductive Notice where
  | conditionFailed (condition : String) (e : ExprError)
  | dispatched (kind : Directive) (node : NodeId) (scope : Option NodeId)
  | directiveFailed (kind : Directive) (node : NodeId) (e : DirectiveError)
  | directiveAborted (kind : Directive) (node : NodeId) (e : DirectiveError)
  | handlerFailed (target : EventTarget) (event function : String) (e : DirectiveError)
  | insertionsPending (rounds : Nat)
  | scanInterrupted
  | hostFailed (failure : HostFailure)

namespace Notice

inductive Level where
  | trace
  | warning
  | error
deriving DecidableEq, Repr

def level : Notice → Level
  | dispatched .. => .trace
  | directiveAborted .. | handlerFailed .. => .error
  | _ => .warning

def headline : Notice → String
  | conditionFailed .. => "condition failed to evaluate"
  | dispatched .. => "dispatch"
  | directiveFailed .. => "directive failed"
  | directiveAborted .. => "directive aborted"
  | handlerFailed .. => "event handler failed"
  | insertionsPending _ => "insertions still pending after the last mutation round"
  | scanInterrupted => "scan interrupted"
  | hostFailed (.output _) => "host output failed"
  | hostFailed (.input _) => "host input failed"

end Notice

end ActiveMarkup
