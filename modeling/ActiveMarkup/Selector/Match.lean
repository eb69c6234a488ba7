import ActiveMarkup.Document.Basic
set_option autoImplicit false

namespace ActiveMarkup

/-- Whether a test holds of the value of an attribute. The tests for a part of the value hold of
no empty part. -/
def AttributeTest.holds (test : AttributeTest) (actual : String) : Bool :=
  match test with
  | present => true
  | equals v => actual == v
  | includes v => (Text.words actual).contains v
  | begins v => v != "" && v.toList.isPrefixOf actual.toList
  | ends v => v != "" && v.toList.isSuffixOf actual.toList
  | contains v => v != "" && Text.holdsWord v.toList actual.toList

/-- The value of an attribute as a selector sees it: that of `style` is the text of the
declarations, if there are any. -/
def Element.selectable? (e : Element) (name : String) : Option String :=
  if name = "style" then if e.style.isEmpty then none else some (Style.render e.style)
  else e.attribute? name

def Compound.holds (c : Compound) (e : Element) : Bool :=
  c.tag.all (· == e.tag) &&
    c.id.all (fun id => e.attribute? "id" == some id) &&
    c.classes.all e.classes.contains &&
    c.attributes.all fun (name, test) => (e.selectable? name).any test.holds

def Compound.holdsAt (c : Compound) (d : Document) (id : NodeId) : Bool :=
  (d.element? id).any c.holds

namespace Selector

def found (d : Document) : List (Relation × Compound) → NodeId → Bool
  | [], _ => true
  | (.child, c) :: rest, id =>
    (d.parent? id).any fun parent => c.holdsAt d parent && found d rest parent
  | (.descendant, c) :: rest, id =>
    (d.ancestors id).tail.any fun ancestor => c.holdsAt d ancestor && found d rest ancestor

def selects (s : Selector) (d : Document) (id : NodeId) : Bool :=
  s.subject.holdsAt d id && found d s.above id

end Selector

end ActiveMarkup
