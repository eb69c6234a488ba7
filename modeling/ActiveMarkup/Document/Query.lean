import ActiveMarkup.Selector.Match
import ActiveMarkup.Selector.Parser
set_option autoImplicit false

namespace ActiveMarkup

namespace Document

def selectors (src : String) : Except DocumentError (List Selector) :=
  match Selector.parseAll src with
  | .ok list => .ok list
  | .error fault => .error (.selector src fault)

def select (d : Document) (list : List Selector) : List NodeId :=
  (d.descendants .root).filter fun id => list.any (·.selects d id)

def queryAll (d : Document) (src : String) : Except DocumentError (List NodeId) :=
  (selectors src).map d.select

def query (d : Document) (src : String) : Except DocumentError (Option NodeId) :=
  (selectors src).map fun list => (d.select list).head?

/-- The first element under the root with an `id` attribute; the empty text is no identifier. -/
def byId? (d : Document) (name : String) : Option NodeId :=
  if name = "" then none
  else (d.descendants .root).find? fun id => d.attribute? id "id" == some name

/-- The element that a text refers to, as an identifier or else as a selector. -/
def resolve? (d : Document) (reference : String) : Option NodeId :=
  match d.byId? reference with
  | some id => some id
  | none =>
    match d.query reference with
    | .ok found => found
    | .error _ => none

end Document

end ActiveMarkup
