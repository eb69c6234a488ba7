import ActiveMarkup.Expr.Basic
set_option autoImplicit false

namespace ActiveMarkup

inductive Expected where
  | expression
  | propertyName
  | endOfInput
  | statementEnd
  | symbol (s : Symbol)
deriving DecidableEq, Repr

def Expected.describe : Expected → String
  | expression => "an expression"
  | propertyName => "a property name"
  | endOfInput => "end of input"
  | statementEnd => "`;` or end of input"
  | symbol s => (Lexeme.symbol s).describe

inductive ExprError where
  | empty
  | unexpectedChar (c : Char) (offset : Nat)
  | unterminatedString (offset : Nat)
  | invalidNumber (text : String)
  | unexpectedToken (found : Token) (expected : Expected)
  | unexpectedEnd (expected : Expected)
  | undefinedVariable (name : String)
  | tooDeep (limit : Nat)
  | invalidTarget (e : Expr)
  | memberOfNullish (name : String) (owner : Value)
  | memberOfNode (name : String)
  | eagerLogic

def ExprError.message : ExprError → String
  | empty => "Empty expression"
  | unexpectedChar c offset =>
    "Unexpected character '" ++ c.toString ++ "' at offset " ++ toString offset
  | unterminatedString offset =>
    "Unterminated string literal starting at offset " ++ toString offset
  | invalidNumber text => "Invalid number literal '" ++ text ++ "'"
  | unexpectedToken found expected =>
    "Unexpected token " ++ found.lexeme.describe ++ " at offset " ++ toString found.offset ++
      ", expected " ++ expected.describe
  | unexpectedEnd expected => "Unexpected end of expression, expected " ++ expected.describe
  | undefinedVariable name => "Undefined variable: " ++ name
  | tooDeep limit => "Expression nested deeper than " ++ toString limit ++ " levels"
  | invalidTarget e => "Invalid assignment target: " ++ e.describe
  | memberOfNullish name owner =>
    "Type error: cannot read property '" ++ name ++ "' of " ++ owner.kindName
  | memberOfNode name =>
    "Type error: cannot read property '" ++ name ++
      "' of a node inside an expression; use <get>"
  | eagerLogic => "Type error: logical operators must be evaluated lazily"

end ActiveMarkup
