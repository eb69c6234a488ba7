set_option autoImplicit false

namespace ActiveMarkup.Markup

inductive Fault where
  | openComment
  | openDeclaration
  | openCloseTag
  | openTag (tag : String)
  | openValue
deriving DecidableEq, Repr

def Fault.message : Fault → String
  | openComment => "unterminated comment"
  | openDeclaration => "unterminated declaration"
  | openCloseTag => "unterminated close tag"
  | openTag tag => "unterminated <" ++ tag ++ "> tag"
  | openValue => "unterminated attribute value"

end ActiveMarkup.Markup
