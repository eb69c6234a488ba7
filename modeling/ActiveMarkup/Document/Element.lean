import ActiveMarkup.Value.Basic
import ActiveMarkup.Text.Blank
import ActiveMarkup.Text.Cut
set_option autoImplicit false

namespace ActiveMarkup

structure Element where
  tag : String
  attributes : Table String
  style : Table String
  properties : Table Value
deriving Inhabited

namespace Element

def ofTag (tag : String) : Element :=
  ⟨tag.toLower, [], [], []⟩

def attribute? (e : Element) (name : String) : Option String :=
  Table.find? e.attributes name

def classes (e : Element) : List String :=
  Text.words ((e.attribute? "class").getD "")

def isHidden (e : Element) : Bool :=
  Table.find? e.style "display" == some "none"

end Element

namespace Style

/-- Add one declaration to a style; without a colon, a name or a value it declares nothing. -/
def addDeclaration (style : Table String) (declaration : List Char) : Table String :=
  match Text.cutAt ':' declaration with
  | none => style
  | some (name, value) =>
    let name := Text.trim name
    let value := Text.trim value
    if name.isEmpty || value.isEmpty then style
    else Table.insert style (String.ofList name).toLower (String.ofList value)

def parse (src : String) : Table String :=
  (Text.partsAt ';' src.toList).foldl addDeclaration []

def render (style : Table String) : String :=
  " ".intercalate (style.map fun (name, value) => name ++ ": " ++ value ++ ";")

/-- The hyphenated form of a property name: a capital ASCII letter becomes a hyphen and the small
letter. -/
def propertyName (name : String) : String :=
  String.ofList (name.toList.flatMap fun c => if c.isUpper then ['-', c.toLower] else [c])

end Style

def voidTags : List String :=
  ["area", "base", "br", "col", "embed", "hr", "img", "input", "link", "meta", "source", "track",
    "wbr"]

/-- The elements whose content is text as it stands, up to the closing tag. -/
def rawTextTags : List String :=
  ["script", "style", "textarea", "title"]

def isVoidTag (tag : String) : Bool :=
  voidTags.contains tag

def isRawTextTag (tag : String) : Bool :=
  rawTextTags.contains tag

end ActiveMarkup
