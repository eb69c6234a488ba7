import ActiveMarkup.Document.Property
import ActiveMarkup.Session.Basic
set_option autoImplicit false

namespace ActiveMarkup.Session

variable {σ : Type}

def ownAttributes : List String := ["class", "id", "style"]

/-- Write one attribute of a writing directive to the target: data attributes as they stand, style
properties and all other properties by their value. -/
def write (s : Session σ) (target : NodeId) (name raw : String) : Outcome σ :=
  if "data-".toList.isPrefixOf name.toList then
    s.takeDocument (s.document.outcome (s.document.setAttribute target name raw))
  else if "style.".toList.isPrefixOf name.toList then
    let (v, s) := s.value raw
    let property := String.ofList (name.toList.drop 6)
    s.takeDocument (s.document.outcome (s.document.setStyle target property v.toText))
  else if ownAttributes.contains name then .done s
  else
    let (v, s) := s.value raw
    s.takeDocument (s.document.setProperty target name v)

def writeAll (target : NodeId) : List (String × String) → Session σ → Outcome σ
  | [], s => .done s
  | (name, raw) :: rest, s => (s.write target name raw).andThen (writeAll target rest)

def setTarget (s : Session σ) (node : NodeId) (scope : Option NodeId) : Outcome σ :=
  match scope with
  | none => .done s
  | some target =>
    writeAll target ((s.document.element? node).elim [] Element.attributes) s

def getTarget (s : Session σ) (node : NodeId) (scope : Option NodeId) : Outcome σ :=
  match scope, s.required? node "property", s.required? node "variable" with
  | some target, some property, some name =>
    .done (s.declare name (s.document.property target property))
  | _, _, _ => .done s

/-- The node that a source text stands for: that of a variable, or else the element it refers
to. -/
def source? (s : Session σ) (reference : String) : Option NodeId :=
  match s.names.lookup reference with
  | some (.node id) => some id
  | _ => s.document.resolve? reference

def appendTarget (s : Session σ) (node : NodeId) (scope : Option NodeId) : Outcome σ :=
  let parent :=
    match s.required? node "target" with
    | some reference => s.document.resolve? reference
    | none => scope
  let child :=
    match s.required? node "source" with
    | some reference => s.source? reference
    | none => scope
  match parent, child with
  | some parent, some child =>
    s.takeDocument (s.document.outcome (s.document.appendChild parent child))
  | _, _ => .done s

def removeTarget (s : Session σ) (scope : Option NodeId) : Outcome σ :=
  match scope with
  | none => .done s
  | some target => .done { s with document := s.document.detach target }

def hideTarget (s : Session σ) (scope : Option NodeId) (next : Bool → Bool) : Outcome σ :=
  match scope with
  | none => .done s
  | some target =>
    let hidden := next (s.document.isHidden target)
    s.takeDocument (s.document.outcome (s.document.setHidden target hidden))

end ActiveMarkup.Session
