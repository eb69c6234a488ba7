import ActiveMarkup.Document.Markup
import ActiveMarkup.Value.Printer
set_option autoImplicit false

namespace ActiveMarkup.Document

def reflected : List String :=
  ["id", "title", "href", "src", "alt", "name", "type", "placeholder", "lang", "dir"]

def computed? (d : Document) (id : NodeId) (e : Element) (name : String) : Option Value :=
  match name with
  | "innerText" | "innertext" => some (.text (d.innerText id))
  | "textContent" | "textcontent" => some (.text (d.textContent id))
  | "innerHTML" | "innerhtml" => some (.text (d.innerMarkup id))
  | "outerHTML" | "outerhtml" => some (.text (d.outerMarkup id))
  | "tagName" | "nodeName" => some (.text e.tag.toUpper)
  | "className" | "classname" => some (.text ((e.attribute? "class").getD ""))
  | "childElementCount" => some (.number (Float.ofNat (d.elementChildren id).length))
  | "hidden" => some (.bool e.isHidden)
  | "parentNode" => some (((d.parent? id).map Value.node).getD .null)
  | "parentElement" => some ((((d.parent? id).filter d.isElement).map Value.node).getD .null)
  | _ => none

/-- A property that was written, under the name or under the name in lower case. -/
def written? (e : Element) (name : String) : Option Value :=
  match Table.find? e.properties name with
  | some v => some v
  | none => Table.find? e.properties name.toLower

/-- A property of an element: computed, written, or read off the attribute of that name. Anything
else is undefined. -/
def property (d : Document) (id : NodeId) (name : String) : Value :=
  match d.element? id with
  | none => .undefined
  | some e =>
    match d.computed? id e name with
    | some v => v
    | none =>
      match written? e name with
      | some v => v
      | none =>
        match e.attribute? name with
        | some s => .text s
        | none => if reflected.contains name || name = "value" then .text "" else .undefined

def outcome (d : Document) : Except DocumentError Document → Option DocumentError × Document
  | .ok changed => (none, changed)
  | .error e => (some e, d)

def setProperty (d : Document) (id : NodeId) (name : String) (value : Value) :
    Option DocumentError × Document :=
  match name.toLower with
  | "innertext" | "textcontent" => d.outcome (d.setTextContent id value.toText)
  | "innerhtml" => d.setInnerMarkup id value.toText
  | "classname" => d.outcome (d.setAttribute id "class" value.toText)
  | "hidden" => d.outcome (d.setHidden id value.isTruthy)
  | name =>
    if reflected.contains name then d.outcome (d.setAttribute id name value.toText)
    else
      d.outcome (d.modifyElement id fun e =>
        { e with properties := Table.insert e.properties name value })

end ActiveMarkup.Document
