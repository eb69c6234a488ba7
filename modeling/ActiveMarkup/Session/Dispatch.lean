import ActiveMarkup.Session.Action
import ActiveMarkup.Session.Declaration
import ActiveMarkup.Session.Dialog
set_option autoImplicit false

/-!
Executing directives. A directive with a body executes the element children it has when it is
reached, one after another, and stops before a child once the session is interrupted. A failure
ends the directive it happened in and is noticed there; it does not reach the directives around
it, so executing a directive as such does not fail.

Execution is bounded by how deep directives may execute others. The tree changes under the walk,
so the bound is given from outside; `Recur` is execution under a smaller bound.
-/

namespace ActiveMarkup.Session

variable {σ : Type}

/-- Executing a node in a scope, nothing if the bound was used up. -/
abbrev Recur (σ : Type) := NodeId → Option NodeId → Session σ → Option (Session σ)

def dispatchAll (recur : Recur σ) (scope : Option NodeId) :
    List NodeId → Session σ → Outcome σ
  | [], s => .done s
  | node :: rest, s =>
    if s.interrupted then .failed .interrupted s
    else
      match recur node scope s with
      | some s => dispatchAll recur scope rest s
      | none => .unfinished

def dispatchBody (recur : Recur σ) (node : NodeId) (scope : Option NodeId) (s : Session σ) :
    Outcome σ :=
  dispatchAll recur scope (s.document.elementChildren node) s

/-- Execute the body of a function in the scope of its declaration, one call deeper. -/
def invoke (recur : Recur σ) (f : Function) (s : Session σ) : Outcome σ :=
  if s.callDepth ≥ s.settings.calls then
    .failed (.callDepth s.callDepth s.settings.calls) s
  else
    (dispatchAll recur f.scope f.body { s with callDepth := s.callDepth + 1 }).mapState
      fun s => { s with callDepth := s.callDepth - 1 }

def call (recur : Recur σ) (node : NodeId) (s : Session σ) : Outcome σ :=
  match s.required? node "function" with
  | none => .done s
  | some name =>
    match s.names.lookupFunction name with
    | none => .done s
    | some f =>
      let readable :=
        match s.required? node "args" with
        | none => true
        | some args => (Json.parse? ("[" ++ args ++ "]")).isSome
      -- the arguments are checked to be JSON and go no further
      if readable then invoke recur f s else .failed (.invalidArguments name) s

def repeatWhile (kind : Directive) (condition : String) (pass : Session σ → Outcome σ)
    (left : Nat) (s : Session σ) : Outcome σ :=
  match s.condition condition with
  | (false, s) => .done s
  | (true, s) =>
    if s.interrupted then .failed .interrupted s
    else
      match left with
      | 0 => .failed (.loopBudget kind s.settings.loops) s
      | left + 1 => (pass s).andThen (repeatWhile kind condition pass left)

def runStatements (src : Option String) (s : Session σ) : Outcome σ :=
  match src with
  | none => .done s
  | some src =>
    match s.names.execute src with
    | (none, names) => .done { s with names }
    | (some e, names) => .failed (.expr e) { s with names }

def branch (recur : Recur σ) (node : NodeId) (scope : Option NodeId) (s : Session σ) : Outcome σ :=
  match s.condition ((s.attribute? node "condition").getD "") with
  | (true, s) => dispatchBody recur node scope s
  | (false, s) => .done s

def repeated (recur : Recur σ) (node : NodeId) (scope : Option NodeId) (s : Session σ) :
    Outcome σ :=
  repeatWhile .repeated ((s.attribute? node "condition").getD "")
    (dispatchBody recur node scope) s.settings.loops s

def counted (recur : Recur σ) (node : NodeId) (scope : Option NodeId) (s : Session σ) :
    Outcome σ :=
  let condition := (s.attribute? node "condition").getD ""
  let increment := s.required? node "increment"
  (runStatements (s.required? node "init") s).andThen fun s =>
    repeatWhile .counted condition
      (fun s => (dispatchBody recur node scope s).andThen (runStatements increment))
      s.settings.loops s

def findById (recur : Recur σ) (node : NodeId) (s : Session σ) : Outcome σ :=
  match s.document.byId? ((s.attribute? node "target").getD "") with
  | some found => dispatchBody recur node (some found) s
  | none => .done s

def findFirst (recur : Recur σ) (node : NodeId) (s : Session σ) : Outcome σ :=
  match s.required? node "selector" with
  | none => .done s
  | some selector =>
    match s.document.query selector with
    | .ok (some found) => dispatchBody recur node (some found) s
    | .ok none => .done s
    | .error e => .failed (.document e) s

def dispatchEach (recur : Recur σ) (node : NodeId) : List NodeId → Session σ → Outcome σ
  | [], s => .done s
  | found :: rest, s =>
    (dispatchBody recur node (some found) s).andThen (dispatchEach recur node rest)

def findAll (recur : Recur σ) (node : NodeId) (s : Session σ) : Outcome σ :=
  match s.required? node "selector" with
  | none => .done s
  | some selector =>
    match s.document.queryAll selector with
    | .ok found => dispatchEach recur node found s
    | .error e => .failed (.document e) s

def create (recur : Recur σ) (node : NodeId) (s : Session σ) : Outcome σ :=
  match s.required? node "tag" with
  | none => .done s
  | some tag =>
    match s.document.createElement tag with
    | .error e => .failed (.document e) s
    | .ok (created, document) =>
      let s := { s with document }
      dispatchBody recur node (some created) (s.declareNamed node (.node created))

def enter (s : Session σ) (kind : Directive) (node : NodeId) (scope : Option NodeId) :
    Session σ :=
  let s := if s.settings.trace then s.note (.dispatched kind node scope) else s
  if s.executed.contains node then s else { s with executed := node :: s.executed }

/-- Notice the failure of a directive. An exhausted limit is graver than other failures, and an
interruption is not noticed. -/
def report (s : Session σ) (kind : Directive) (node : NodeId) (e : DirectiveError) : Session σ :=
  match e with
  | .loopBudget .. | .callDepth .. => s.note (.directiveAborted kind node e)
  | .interrupted => s
  | _ => s.note (.directiveFailed kind node e)

def leave (s : Session σ) (node : NodeId) : Session σ :=
  if s.settings.hide then
    { s with document := (s.document.outcome (s.document.setHidden node true)).2 }
  else s

variable [Host σ]

def perform (recur : Recur σ) (kind : Directive) (node : NodeId) (scope : Option NodeId)
    (s : Session σ) : Outcome σ :=
  match kind with
  | .function => s.declareFunction node scope
  | .variable => s.declareVariable node
  | .listen => s.addListener node
  | .call => call recur node s
  | .branch => branch recur node scope s
  | .counted => counted recur node scope s
  | .repeated => repeated recur node scope s
  | .findById => findById recur node s
  | .findFirst => findFirst recur node s
  | .findAll => findAll recur node s
  | .set => s.setTarget node scope
  | .get => s.getTarget node scope
  | .create => create recur node s
  | .append => s.appendTarget node scope
  | .remove => s.removeTarget scope
  | .reveal => s.hideTarget scope fun _ => false
  | .conceal => s.hideTarget scope fun _ => true
  | .toggle => s.hideTarget scope fun hidden => !hidden
  | .alert => s.alert node
  | .confirm => s.confirm node
  | .prompt => s.prompt node
  | .log => s.log node

def kindOf? (d : Document) (node : NodeId) : Option Directive :=
  (d.tag? node).bind Directive.ofTag?

/-- Execute a node in a scope, with directives nested at most `bound` deep. A node that is no
directive is passed over. -/
def dispatch : Nat → Recur σ
  | 0, _, _, _ => none
  | bound + 1, node, scope, s =>
    match kindOf? s.document node with
    | none => some s
    | some kind =>
      match perform (dispatch bound) kind node scope (s.enter kind node scope) with
      | .done s => some (s.leave node)
      -- the failure ends here, and the directives around this one go on
      | .failed e s => some ((s.report kind node e).leave node)
      | .unfinished => none

end ActiveMarkup.Session
