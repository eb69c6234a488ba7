import ActiveMarkup.Document.Element
import ActiveMarkup.Markup.Fault
import ActiveMarkup.Selector.Basic
set_option autoImplicit false

/-!
Documents: an arena of nodes that know their parent and their children, and a journal of the
nodes that were inserted under the root. Nodes are only ever added, so a handle stays good.

The walks up and down the tree are given as many steps as there are nodes, which is enough when
no node is its own ancestor.
-/

namespace ActiveMarkup

inductive NodeKind where
  | document
  | element (e : Element)
  | text (s : String)
  | comment (s : String)
deriving Inhabited

structure Node where
  parent : Option NodeId
  children : List NodeId
  kind : NodeKind
deriving Inhabited

/-- A document: all nodes ever made, and the insertions not yet taken. -/
structure Document where
  nodes : Array Node
  inserted : Array NodeId
deriving Inhabited

inductive DocumentError where
  | markup (fault : Markup.Fault) (offset : Nat)
  | selector (source : String) (fault : Selector.Fault)
  | invalidTagName (tag : String)
  | unknownNode (id : NodeId)
  | notAnElement (id : NodeId)
  | cycle (child parent : NodeId)
deriving DecidableEq, Repr

def DocumentError.message : DocumentError → String
  | markup fault offset => "Markup error at offset " ++ toString offset ++ ": " ++ fault.message
  | selector source fault => "Invalid selector '" ++ source ++ "': " ++ fault.message
  | invalidTagName tag => "Invalid tag name '" ++ tag ++ "'"
  | unknownNode id => "Unknown node " ++ id.label
  | notAnElement id => "Node " ++ id.label ++ " is not an element"
  | cycle child parent =>
    "Cannot append node " ++ child.label ++ " into its own subtree at " ++ parent.label

namespace Document

def empty : Document := ⟨#[⟨none, [], .document⟩], #[]⟩

def node? (d : Document) (id : NodeId) : Option Node :=
  d.nodes[id.index]?

def element? (d : Document) (id : NodeId) : Option Element :=
  match d.node? id with
  | some ⟨_, _, .element e⟩ => some e
  | _ => none

def isElement (d : Document) (id : NodeId) : Bool :=
  (d.element? id).isSome

def tag? (d : Document) (id : NodeId) : Option String :=
  (d.element? id).map Element.tag

def parent? (d : Document) (id : NodeId) : Option NodeId :=
  (d.node? id).bind Node.parent

def children (d : Document) (id : NodeId) : List NodeId :=
  ((d.node? id).map Node.children).getD []

def elementChildren (d : Document) (id : NodeId) : List NodeId :=
  (d.children id).filter d.isElement

def ancestorsWithin (d : Document) : Nat → NodeId → List NodeId
  | 0, _ => []
  | steps + 1, id =>
    id ::
      match d.parent? id with
      | none => []
      | some parent => d.ancestorsWithin steps parent

def ancestors (d : Document) (id : NodeId) : List NodeId :=
  d.ancestorsWithin (d.nodes.size + 1) id

def isAncestor (d : Document) (ancestor id : NodeId) : Bool :=
  (d.ancestors id).contains ancestor

def isConnected (d : Document) (id : NodeId) : Bool :=
  d.isAncestor .root id

/-- A node and those below it in document order, at most `depth` levels of them. -/
def subtreeWithin (d : Document) : Nat → NodeId → List NodeId
  | 0, _ => []
  | depth + 1, id => id :: (d.children id).flatMap (d.subtreeWithin depth)

def subtree (d : Document) (id : NodeId) : List NodeId :=
  d.subtreeWithin (d.nodes.size + 1) id

def descendants (d : Document) (id : NodeId) : List NodeId :=
  (d.subtree id).tail.filter d.isElement

def attribute? (d : Document) (id : NodeId) (name : String) : Option String :=
  (d.element? id).bind (·.attribute? name)

def style? (d : Document) (id : NodeId) (property : String) : Option String :=
  (d.element? id).bind fun e => Table.find? e.style (Style.propertyName property)

def isHidden (d : Document) (id : NodeId) : Bool :=
  (d.element? id).any Element.isHidden

/-- The text of a node and of the nodes below it, at most `depth` levels of them; elements that
are not shown may be left out. -/
def textWithin (d : Document) (shownOnly : Bool) : Nat → NodeId → String
  | 0, _ => ""
  | depth + 1, id =>
    match d.node? id with
    | none => ""
    | some n =>
      match n.kind with
      | .text s => s
      | .comment _ => ""
      | .element e =>
        if shownOnly && e.isHidden then ""
        else String.join (n.children.map (d.textWithin shownOnly depth))
      | .document => String.join (n.children.map (d.textWithin shownOnly depth))

def textContent (d : Document) (id : NodeId) : String :=
  d.textWithin false (d.nodes.size + 1) id

def innerText (d : Document) (id : NodeId) : String :=
  d.textWithin true (d.nodes.size + 1) id

def hasInsertions (d : Document) : Bool :=
  !d.inserted.isEmpty

end Document

end ActiveMarkup
