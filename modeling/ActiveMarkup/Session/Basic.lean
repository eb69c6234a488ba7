import ActiveMarkup.Document.Query
import ActiveMarkup.Expr.Statement
import ActiveMarkup.Session.Notice
set_option autoImplicit false

namespace ActiveMarkup

/-- The limits of a session, and whether executed directives are hidden and every dispatch is
noticed. -/
structure Settings where
  loops : Nat
  calls : Nat
  rounds : Nat
  hide : Bool
  trace : Bool
deriving DecidableEq, Repr

def Settings.standard : Settings := ⟨10000, 256, 64, true, false⟩

/-- A function that is to run when an event is fired on a target. It stays the one that was
declared when the listener was added. -/
structure Listener where
  target : EventTarget
  event : String
  function : Function
deriving DecidableEq, Repr

structure Session (σ : Type) where
  document : Document
  names : Namespace
  host : σ
  settings : Settings
  listeners : List Listener
  callDepth : Nat
  executed : List NodeId
  interrupted : Bool
  notices : Array Notice

inductive Outcome (σ : Type) where
  | done (s : Session σ)
  | failed (e : DirectiveError) (s : Session σ)
  | unfinished

namespace Outcome

variable {σ : Type}

def andThen (o : Outcome σ) (next : Session σ → Outcome σ) : Outcome σ :=
  match o with
  | done s => next s
  | failed e s => failed e s
  | unfinished => unfinished

def mapState (f : Session σ → Session σ) : Outcome σ → Outcome σ
  | done s => done (f s)
  | failed e s => failed e (f s)
  | unfinished => unfinished

end Outcome

namespace Session

variable {σ : Type}

def ofDocument (document : Document) (host : σ) (settings : Settings) : Session σ :=
  { document, names := .empty, host, settings, listeners := [], callDepth := 0, executed := [],
    interrupted := false, notices := #[] }

def note (s : Session σ) (n : Notice) : Session σ :=
  { s with notices := s.notices.push n }

def declare (s : Session σ) (name : String) (value : Value) : Session σ :=
  { s with names := s.names.declare name value }

def attribute? (s : Session σ) (node : NodeId) (name : String) : Option String :=
  s.document.attribute? node name

def required? (s : Session σ) (node : NodeId) (name : String) : Option String :=
  (s.attribute? node name).filter (· ≠ "")

/-- Whether a condition holds; one that cannot be evaluated does not, and is noticed. -/
def condition (s : Session σ) (src : String) : Bool × Session σ :=
  match s.names.holds src with
  | .ok b => (b, s)
  | .error e => (false, s.note (.conditionFailed src e))

def value (s : Session σ) (src : String) : Value × Session σ :=
  let (v, names) := s.names.resolve src
  (v, { s with names })

def takeDocument (s : Session σ) : Option DocumentError × Document → Outcome σ
  | (none, document) => .done { s with document }
  | (some e, document) => .failed (.document e) { s with document }

def serve {α : Type} (s : Session σ) (request : σ → Served σ α) : α × Session σ :=
  match s with
  | { document, names, host, settings, listeners, callDepth, executed, interrupted, notices } =>
    let served := request host
    (served.answer,
      { document, names, settings, listeners, callDepth, executed
        host := served.host
        interrupted := interrupted || served.interrupts
        notices := served.failures.foldl (fun out f => out.push (.hostFailed f)) notices })

end Session

end ActiveMarkup
