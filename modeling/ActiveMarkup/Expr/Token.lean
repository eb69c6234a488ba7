import ActiveMarkup.Decimal.Layout
import ActiveMarkup.Text.Quoted
set_option autoImplicit false

namespace ActiveMarkup

inductive Symbol where
  | plus | minus | star | slash | percent | bang
  | less | lessEqual | greater | greaterEqual
  | looseEqual | looseUnequal | strictEqual | strictUnequal
  | both | either
  | assign | plusAssign | minusAssign | starAssign | slashAssign
  | increment | decrement
  | openParen | closeParen | openBracket | closeBracket
  | dot | comma | semicolon
deriving DecidableEq, Repr

namespace Symbol

def spelling : Symbol → String
  | plus => "+" | minus => "-" | star => "*" | slash => "/" | percent => "%" | bang => "!"
  | less => "<" | lessEqual => "<=" | greater => ">" | greaterEqual => ">="
  | looseEqual => "==" | looseUnequal => "!=" | strictEqual => "===" | strictUnequal => "!=="
  | both => "&&" | either => "||"
  | assign => "=" | plusAssign => "+=" | minusAssign => "-=" | starAssign => "*="
  | slashAssign => "/=" | increment => "++" | decrement => "--"
  | openParen => "(" | closeParen => ")" | openBracket => "[" | closeBracket => "]"
  | dot => "." | comma => "," | semicolon => ";"

/-- Every symbol, the longer spellings first, so that the first one that fits is the longest. -/
def longestFirst : List Symbol :=
  [strictEqual, strictUnequal,
    looseEqual, looseUnequal, lessEqual, greaterEqual, both, either,
    plusAssign, minusAssign, starAssign, slashAssign, increment, decrement,
    plus, minus, star, slash, percent, bang, less, greater, assign,
    openParen, closeParen, openBracket, closeBracket, dot, comma, semicolon]

end Symbol

inductive Lexeme where
  | number (x : Float)
  | text (s : String)
  | name (s : String)
  | symbol (s : Symbol)

structure Token where
  lexeme : Lexeme
  offset : Nat

namespace Lexeme

def describe : Lexeme → String
  | number x => "number " ++ Decimal.literal.text x
  | text s => "string " ++ Text.quoted s
  | name s => "identifier `" ++ s ++ "`"
  | symbol s => "`" ++ s.spelling ++ "`"

def isSymbol (s : Symbol) : Lexeme → Bool
  | symbol t => t = s
  | _ => false

end Lexeme

end ActiveMarkup
