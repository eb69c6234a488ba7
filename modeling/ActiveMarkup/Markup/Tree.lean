import ActiveMarkup.Document.Element
import ActiveMarkup.Markup.Entity
set_option autoImplicit false

namespace ActiveMarkup.Markup

inductive Tree where
  | element (tag : String) (attributes style : Table String) (children : List Tree)
  | text (s : String)
  | comment (s : String)
deriving Inhabited

def renderAttribute (name value : String) : String :=
  if value = "" then " " ++ name
  else " " ++ name ++ "=\"" ++ String.ofList (escape .attribute value.toList) ++ "\""

def renderAttributes (attributes style : Table String) : String :=
  String.join (attributes.map fun (name, value) => renderAttribute name value) ++
    if style.isEmpty then "" else renderAttribute "style" (Style.render style)

mutual

/-- The markup of a tree; `raw` tells whether it stands in an element of raw text. -/
def render (raw : Bool) : Tree → String
  | .text s => if raw then s else String.ofList (escape .content s.toList)
  | .comment s => "<!--" ++ s ++ "-->"
  | .element tag attributes style children =>
    let opening := "<" ++ tag ++ renderAttributes attributes style ++ ">"
    if isVoidTag tag then opening
    else opening ++ renderAll (isRawTextTag tag) children ++ "</" ++ tag ++ ">"

def renderAll (raw : Bool) : List Tree → String
  | [] => ""
  | t :: ts => render raw t ++ renderAll raw ts

end

end ActiveMarkup.Markup
