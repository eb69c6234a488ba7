import ActiveMarkup.Expr.Error
import ActiveMarkup.Decimal.Numeral
import ActiveMarkup.Text.Alphanumeric
import ActiveMarkup.Text.Blank
import ActiveMarkup.Text.Cut
set_option autoImplicit false

namespace ActiveMarkup.Lexer

/-- Whether a character can start a name: an ASCII letter, a low line, a dollar sign, or any
character outside ASCII. -/
def startsName (c : Char) : Bool :=
  c.isAlpha || c == '_' || c == '$' || c.toNat ≥ 0x80

def inName (c : Char) : Bool :=
  Text.isAlphanumeric c || c == '_' || c == '$'

def startsNumber : List Char → Bool
  | '.' :: c :: _ => c.isDigit
  | c :: _ => c.isDigit
  | [] => false

def exponentLength (cs : List Char) : Nat :=
  cs.length - (Decimal.takeExponent cs).2.length

/-- How many characters a number at the front of a text takes: a run of digits and points, and
an exponent. The run need not be a numeral. -/
def numberLength (cs : List Char) : Nat :=
  let run := cs.takeWhile fun c => c.isDigit || c == '.'
  run.length + exponentLength (cs.drop run.length)

def escaped (c : Char) : Char :=
  if c == 'n' then '\n'
  else if c == 't' then '\t'
  else if c == 'r' then '\r'
  else if c == '0' then '\x00'
  else c

/-- The rest of a string up to its closing quote: its characters, last first on `out`, and how
many characters were read, counting on from `count`. Nothing if the quote is missing. -/
def readString? (quote : Char) (out : List Char) (count : Nat) :
    List Char → Option (String × Nat)
  | [] => none
  | c :: cs =>
    if c == quote then some (String.ofList out.reverse, count + 1)
    else if c == '\\' then
      match cs with
      | [] => none
      | d :: ds => readString? quote (escaped d :: out) (count + 2) ds
    else readString? quote (c :: out) (count + 1) cs

def symbolAt? (cs : List Char) : Option Symbol :=
  Symbol.longestFirst.find? fun s => s.spelling.toList.isPrefixOf cs

/-- The token that starts with `c`, and how many of the characters after `c` belong to it. -/
def next (offset : Nat) (c : Char) (cs : List Char) : Except ExprError (Lexeme × Nat) :=
  if startsNumber (c :: cs) then
    let size := numberLength (c :: cs)
    let digits := (c :: cs).take size
    match Decimal.readWhole? digits with
    | some x => .ok (.number x, size - 1)
    | none => .error (.invalidNumber (String.ofList digits))
  else if startsName c then
    -- outside ASCII a character may start a name and yet not stand in one
    if inName c then
      let more := cs.takeWhile inName
      .ok (.name (String.ofList (c :: more)), more.length)
    else .error (.unexpectedChar c offset)
  else if c == '"' || c == '\'' then
    match readString? c [] 0 cs with
    | some (s, size) => .ok (.text s, size)
    | none => .error (.unterminatedString offset)
  else
    match symbolAt? (c :: cs) with
    | some s => .ok (.symbol s, s.spelling.length - 1)
    | none => .error (.unexpectedChar c offset)

def scan (offset : Nat) : List Char → Except ExprError (List Token)
  | [] => .ok []
  | c :: cs =>
    if Text.isAsciiBlank c then scan (offset + c.utf8Size) cs
    else do
      let (lexeme, size) ← next offset c cs
      let more ← scan (offset + c.utf8Size + Text.byteSize (cs.take size)) (cs.drop size)
      pure (⟨lexeme, offset⟩ :: more)
termination_by cs => cs.length
decreasing_by
  all_goals simp only [List.length_cons, List.length_drop]
  all_goals omega

end ActiveMarkup.Lexer

namespace ActiveMarkup

def tokenize (src : String) : Except ExprError (List Token) :=
  Lexer.scan 0 src.toList

end ActiveMarkup
