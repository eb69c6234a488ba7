import ActiveMarkup.Json
import ActiveMarkup.Session.Basic
set_option autoImplicit false

namespace ActiveMarkup.Session

variable {σ : Type}

/-- Declare a function: its body is the element children of the directive as they are now. -/
def declareFunction (s : Session σ) (node : NodeId) (scope : Option NodeId) : Outcome σ :=
  match s.required? node "name" with
  | none => .done s
  | some name =>
    let body := s.document.elementChildren node
    .done { s with names := s.names.declareFunction name body scope }

/-- The value of a literal of a declared kind, with the namespace that gave it identities. Without
a literal a number is NaN, a truth value is false, and anything else is null. -/
def literal? (names : Namespace) (kind : String) (src : Option String) :
    Option (Value × Namespace) :=
  match kind, src with
  | "number", none => some (.number Decimal.notANumber, names)
  | "number", some src => some (.number (Value.leadingNumber src), names)
  | "boolean", src => some (.bool (src == some "true"), names)
  | "array", some src | "object", some src =>
    (Json.parse? src).map fun json =>
      let (v, nextRef) := Value.ofJson names.nextRef json
      (v, { names with nextRef })
  | _, none => some (.null, names)
  | _, some src => some (.text src, names)

def declareVariable (s : Session σ) (node : NodeId) : Outcome σ :=
  match s.required? node "name" with
  | none => .done s
  | some name =>
    let kind := (s.attribute? node "type").getD "string"
    match literal? s.names kind (s.attribute? node "value") with
    | none => .failed (.invalidLiteral name kind) s
    | some (v, names) => .done { s with names := names.declare name v }

def eventTarget? (d : Document) (reference : String) : Option EventTarget :=
  if reference = "window" then some .window
  else if reference = "document" then some .document
  else (d.resolve? reference).map EventTarget.node

def addListener (s : Session σ) (node : NodeId) : Outcome σ :=
  match s.required? node "target", s.required? node "event", s.required? node "function" with
  | some target, some event, some function =>
    match eventTarget? s.document target, s.names.lookupFunction function with
    | some target, some function =>
      .done { s with listeners := s.listeners ++ [⟨target, event, function⟩] }
    | _, _ => .done s
  | _, _, _ => .done s

end ActiveMarkup.Session
