import ActiveMarkup.Document.Edit
import ActiveMarkup.Markup.Piece
import ActiveMarkup.Markup.Tree
set_option autoImplicit false

/-!
Documents from markup and back. Pieces are added one after another under the innermost open
element; a closing tag closes the innermost open element of that tag with those inside it, and is
passed over if there is none. What is still open at the end is closed there.

A fragment is built under a holder of its own and then moved, so its handles come after the
holder's, and what was built before a break-off keeps its handles too.
-/

namespace ActiveMarkup.Document

def pushChild (d : Document) (parent : NodeId) (kind : NodeKind) : NodeId × Document :=
  let (id, d) := d.push kind
  (id, d.link parent id)

/-- The open elements with their tags, innermost first, after a closing tag. -/
def closeTag (tag : String) (stack : List (NodeId × String)) : List (NodeId × String) :=
  match stack.dropWhile fun entry => entry.2 ≠ tag with
  | [] => stack
  | _ :: rest => rest

def build (container : NodeId) :
    List (NodeId × String) → List Markup.Piece → Document → Document
  | _, [], d => d
  | stack, piece :: rest, d =>
    let parent := (stack.head?.map Prod.fst).getD container
    match piece with
    | .comment s => build container stack rest (d.pushChild parent (.comment s)).2
    | .text s => build container stack rest (d.pushChild parent (.text s)).2
    | .leaf e => build container stack rest (d.pushChild parent (.element e)).2
    | .verbatim e s =>
      let (id, d) := d.pushChild parent (.element e)
      build container stack rest (if s = "" then d else (d.pushChild id (.text s)).2)
    | .opening e =>
      let (id, d) := d.pushChild parent (.element e)
      build container ((id, e.tag) :: stack) rest d
    | .closing tag => build container (closeTag tag stack) rest d

/-- Read markup into a container. What comes before a break-off is added. -/
def readInto (d : Document) (container : NodeId) (src : String) :
    Option DocumentError × Document :=
  let (pieces, error) := Markup.pieces src
  (error.map fun (fault, offset) => .markup fault offset, d.build container [] pieces)

def parse (src : String) : Except DocumentError Document :=
  match empty.readInto .root src with
  | (none, d) => .ok d
  | (some e, _) => .error e

def appendAll (parent : NodeId) : List NodeId → Document → Option DocumentError × Document
  | [], d => (none, d)
  | child :: rest, d =>
    match d.appendChild parent child with
    | .ok d => appendAll parent rest d
    | .error e => (some e, d)

def holderTag : String := "template"

def appendMarkup (d : Document) (parent : NodeId) (src : String) :
    Except DocumentError (List NodeId) × Document :=
  -- the holder is never connected, and is left behind
  let (holder, d) := d.push (.element (.ofTag holderTag))
  match d.readInto holder src with
  | (some e, d) => (.error e, d)
  | (none, d) =>
    let nodes := d.children holder
    match appendAll parent nodes d with
    | (some e, d) => (.error e, d)
    | (none, d) => (.ok nodes, d)

/-- Replace the children of an element by a fragment. The children are gone even if the fragment
breaks off. -/
def setInnerMarkup (d : Document) (id : NodeId) (src : String) : Option DocumentError × Document :=
  match d.modifyElement id fun e => e with
  | .error e => (some e, d)
  | .ok d =>
    match (d.clearChildren id).appendMarkup id src with
    | (.error e, d) => (some e, d)
    | (.ok _, d) => (none, d)

def treesWithin (d : Document) : Nat → NodeId → List Markup.Tree
  | 0, _ => []
  | depth + 1, id =>
    match d.node? id with
    | none => []
    | some n =>
      match n.kind with
      | .document => n.children.flatMap (d.treesWithin depth)
      | .text s => [.text s]
      | .comment s => [.comment s]
      | .element e =>
        [.element e.tag e.attributes e.style (n.children.flatMap (d.treesWithin depth))]

def trees (d : Document) (id : NodeId) : List Markup.Tree :=
  d.treesWithin (d.nodes.size + 1) id

def holdsRawText (d : Document) (id : NodeId) : Bool :=
  (d.tag? id).any isRawTextTag

def innerMarkup (d : Document) (id : NodeId) : String :=
  Markup.renderAll (d.holdsRawText id) ((d.children id).flatMap d.trees)

def outerMarkup (d : Document) (id : NodeId) : String :=
  Markup.renderAll ((d.parent? id).any d.holdsRawText) (d.trees id)

def toMarkup (d : Document) : String :=
  d.innerMarkup .root

end ActiveMarkup.Document
