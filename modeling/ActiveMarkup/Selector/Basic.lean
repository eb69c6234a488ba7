set_option autoImplicit false

namespace ActiveMarkup

inductive AttributeTest where
  | present
  | equals (value : String)
  | includes (value : String)
  | begins (value : String)
  | ends (value : String)
  | contains (value : String)
deriving DecidableEq, Repr

/-- Conditions on one element: its tag, its identifier, its classes and its attributes. Of several
identifiers the last one written counts. -/
structure Compound where
  tag : Option String
  id : Option String
  classes : List String
  attributes : List (String × AttributeTest)
deriving DecidableEq, Repr

inductive Relation where
  | child
  | descendant
deriving DecidableEq, Repr

/-- A subject, and the compounds above it from the nearest on. -/
structure Selector where
  subject : Compound
  above : List (Relation × Compound)
deriving DecidableEq, Repr

namespace Compound

def any : Compound := ⟨none, none, [], []⟩

end Compound

namespace Selector

inductive Fault where
  | empty
  | leadingRelation
  | danglingRelation
  | unexpected (c : Char)
  | noName (found : Option Char)
  | digitFirst
  | pseudoClass
  | malformedAttribute
  | openString
  | noBracket
deriving DecidableEq, Repr

def Fault.message : Fault → String
  | empty => "empty selector"
  | leadingRelation => "selector cannot start with a combinator"
  | danglingRelation => "dangling combinator"
  | unexpected c => "unexpected '" ++ c.toString ++ "'"
  | noName none => "expected a name"
  | noName (some c) => "expected a name, found '" ++ c.toString ++ "'"
  | digitFirst => "type selector cannot start with a digit"
  | pseudoClass => "pseudo-classes are not supported"
  | malformedAttribute => "malformed attribute selector"
  | openString => "unterminated string in attribute selector"
  | noBracket => "expected ']'"

end Selector

end ActiveMarkup
