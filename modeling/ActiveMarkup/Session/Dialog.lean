import ActiveMarkup.Session.Basic
set_option autoImplicit false

namespace ActiveMarkup.Session

variable {σ : Type}

def message (s : Session σ) (node : NodeId) : String × Session σ :=
  let raw := (s.required? node "message").getD (s.document.textContent node)
  let (v, s) := s.value raw
  (v.toText, s)

def declareNamed (s : Session σ) (node : NodeId) (v : Value) : Session σ :=
  match s.required? node "variable" with
  | some name => s.declare name v
  | none => s

variable [Host σ]

def alert (s : Session σ) (node : NodeId) : Outcome σ :=
  let (message, s) := s.message node
  .done (s.serve (Host.alert message)).2

def confirm (s : Session σ) (node : NodeId) : Outcome σ :=
  let (message, s) := s.message node
  let (answer, s) := s.serve (Host.confirm message)
  .done (s.declareNamed node (.bool answer))

def prompt (s : Session σ) (node : NodeId) : Outcome σ :=
  let (message, s) := s.message node
  let (default, s) :=
    match s.attribute? node "default" with
    | some src =>
      let (v, s) := s.value src
      (v.toText, s)
    | none => ("", s)
  let (answer, s) := s.serve (Host.prompt message default)
  .done (s.declareNamed node (answer.elim .null .text))

def log (s : Session σ) (node : NodeId) : Outcome σ :=
  let (message, s) := s.message node
  .done (s.serve (Host.log message)).2

end ActiveMarkup.Session
