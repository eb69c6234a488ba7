import ActiveMarkup.Document.Basic
set_option autoImplicit false

namespace ActiveMarkup.Document

def modify (d : Document) (id : NodeId) (f : Node → Node) : Document :=
  { d with nodes := d.nodes.modify id.index f }

def push (d : Document) (kind : NodeKind) : NodeId × Document :=
  (⟨d.nodes.size⟩, { d with nodes := d.nodes.push ⟨none, [], kind⟩ })

def isTagName (tag : String) : Bool :=
  match tag.toList with
  | [] => false
  | c :: cs => c.isAlpha && cs.all fun c => c.isAlphanum || c == '-' || c == '_' || c == ':'

def createElement (d : Document) (tag : String) : Except DocumentError (NodeId × Document) :=
  if isTagName tag then .ok (d.push (.element (.ofTag tag))) else .error (.invalidTagName tag)

def createText (d : Document) (s : String) : NodeId × Document :=
  d.push (.text s)

def createComment (d : Document) (s : String) : NodeId × Document :=
  d.push (.comment s)

def detach (d : Document) (id : NodeId) : Document :=
  match d.parent? id with
  | none => d
  | some parent =>
    (d.modify parent fun n => { n with children := n.children.filter (· ≠ id) }).modify id
      fun n => { n with parent := none }

def clearChildren (d : Document) (id : NodeId) : Document :=
  (d.children id).foldl detach d

def link (d : Document) (parent child : NodeId) : Document :=
  (d.modify child fun n => { n with parent := some parent }).modify parent
    fun n => { n with children := n.children ++ [child] }

/-- Why a node cannot be put under another: the parent is unknown or takes no children, the child
is unknown or the root, or the parent stands under the child. The first reason counts. -/
def refusal? (d : Document) (parent child : NodeId) : Option DocumentError :=
  match (d.node? parent).map Node.kind with
  | none => some (.unknownNode parent)
  | some (.text _) | some (.comment _) => some (.notAnElement parent)
  | some _ =>
    if (d.node? child).isNone || child = .root then some (.unknownNode child)
    else if d.isAncestor child parent then some (.cycle child parent)
    else none

/-- Put a node under another as its last child, and enter it in the journal if the parent stands
under the root. -/
def appendChild (d : Document) (parent child : NodeId) : Except DocumentError Document :=
  match d.refusal? parent child with
  | some e => .error e
  | none =>
    let d := (d.detach child).link parent child
    -- an earlier entry of the child stays, so it may be in the journal twice
    .ok (if d.isConnected parent then { d with inserted := d.inserted.push child } else d)

def takeInserted (d : Document) : List NodeId × Document :=
  (d.inserted.toList, { d with inserted := #[] })

def modifyElement (d : Document) (id : NodeId) (f : Element → Element) :
    Except DocumentError Document :=
  match d.node? id with
  | none => .error (.unknownNode id)
  | some ⟨_, _, .element e⟩ => .ok (d.modify id fun n => { n with kind := .element (f e) })
  | some _ => .error (.notAnElement id)

/-- Set an attribute. Setting `style` replaces the inline style. -/
def setAttribute (d : Document) (id : NodeId) (name value : String) :
    Except DocumentError Document :=
  let name := name.toLower
  d.modifyElement id fun e =>
    if name = "style" then { e with style := Style.parse value }
    else { e with attributes := Table.insert e.attributes name value }

def setStyle (d : Document) (id : NodeId) (property value : String) :
    Except DocumentError Document :=
  let property := Style.propertyName property
  d.modifyElement id fun e =>
    if value = "" then { e with style := Table.erase e.style property }
    else { e with style := Table.insert e.style property value }

def setHidden (d : Document) (id : NodeId) (hidden : Bool) : Except DocumentError Document :=
  d.setStyle id "display" (if hidden then "none" else "")

def setTextContent (d : Document) (id : NodeId) (s : String) : Except DocumentError Document := do
  let d ← d.modifyElement id fun e => e
  let d := d.clearChildren id
  if s = "" then pure d
  else
    let (child, d) := d.createText s
    d.appendChild id child

end ActiveMarkup.Document
