import ActiveMarkup.Expr.Lexer
set_option autoImplicit false

/-!
The grammar of expressions. Six levels of binary operators, each grouping to the left, stand
over prefix operators, which stand over access to members and items, which stands over literals,
names, parentheses and arrays.

Nesting is limited. A parser is given the room that is left, and every bracket, prefix operator,
access and further operand of a chain takes one unit of it for what follows; the items of an
array share their room. So the recursion goes down in the room, or keeps it and goes down in the
level, or moves on in the list of array items.
-/

namespace ActiveMarkup.Parser

def maxDepth : Nat := 128

def topLevel : Nat := 6

/-- The binary operator that a symbol stands for on a level; the lower level binds tighter. -/
def operatorAt (level : Nat) (s : Symbol) : Option BinaryOp :=
  match level, s with
  | 0, .star => some .mul
  | 0, .slash => some .div
  | 0, .percent => some .rem
  | 1, .plus => some .add
  | 1, .minus => some .sub
  | 2, .less => some .lt
  | 2, .lessEqual => some .le
  | 2, .greater => some .gt
  | 2, .greaterEqual => some .ge
  | 3, .looseEqual => some .looseEq
  | 3, .looseUnequal => some .looseNe
  | 3, .strictEqual => some .strictEq
  | 3, .strictUnequal => some .strictNe
  | 4, .both => some .and
  | 5, .either => some .or
  | _, _ => none

def prefixAt : Symbol → Option UnaryOp
  | .bang => some .not
  | .minus => some .neg
  | .plus => some .plus
  | _ => none

/-- The expression that a name denotes: six names are literals, every other one a variable. -/
def ofName (name : String) : Expr :=
  if name == "true" then .literal (.bool true)
  else if name == "false" then .literal (.bool false)
  else if name == "null" then .literal .null
  else if name == "undefined" then .literal .undefined
  else if name == "NaN" then .literal (.number Decimal.notANumber)
  else if name == "Infinity" then .literal (.number Decimal.infinity)
  else .variable name

def unexpected (expected : Expected) : List Token → ExprError
  | [] => .unexpectedEnd expected
  | t :: _ => .unexpectedToken t expected

def symbol? : List Token → Option Symbol
  | ⟨.symbol s, _⟩ :: _ => some s
  | _ => none

def expect (s : Symbol) (ts : List Token) : Except ExprError (List Token) :=
  if symbol? ts = some s then .ok ts.tail else .error (unexpected (.symbol s) ts)

abbrev Read := Except ExprError (Expr × List Token)

def tooDeep {α : Type} : Except ExprError α :=
  .error (.tooDeep maxDepth)

mutual

/-- An operand of a level with the operators of that level after it; level zero is a prefix
operand. -/
def readLevel (level room : Nat) (ts : List Token) : Read :=
  match level with
  | 0 => readPrefixed room ts
  | level + 1 => do
    let (left, rest) ← readLevel level room ts
    readChain level room left rest
termination_by (room, level + 2)

def readChain (level room : Nat) (left : Expr) (ts : List Token) : Read :=
  match (symbol? ts).bind (operatorAt level) with
  | none => .ok (left, ts)
  | some op =>
    match room with
    | 0 => tooDeep
    | room + 1 => do
      let (right, rest) ← readLevel level room ts.tail
      readChain level room (.binary op left right) rest
termination_by (room, 0)

def readPrefixed (room : Nat) (ts : List Token) : Read :=
  match (symbol? ts).bind prefixAt with
  | none => do
    let (e, rest) ← readPrimary room ts
    readAccess room e rest
  | some op =>
    match room with
    | 0 => tooDeep
    | room + 1 => do
      let (operand, rest) ← readPrefixed room ts.tail
      pure (.unary op operand, rest)
termination_by (room, 1)

def readAccess (room : Nat) (e : Expr) (ts : List Token) : Read :=
  match symbol? ts with
  | some .dot =>
    match room with
    | 0 => tooDeep
    | room + 1 =>
      match ts.tail with
      | ⟨.name name, _⟩ :: rest => readAccess room (.member e name) rest
      | rest => .error (unexpected .propertyName rest)
  | some .openBracket =>
    match room with
    | 0 => tooDeep
    | room + 1 => do
      let (i, rest) ← readLevel topLevel room ts.tail
      let rest ← expect .closeBracket rest
      readAccess room (.index e i) rest
  | _ => .ok (e, ts)
termination_by (room, 0)

def readPrimary (room : Nat) (ts : List Token) : Read :=
  match ts with
  | ⟨.number x, _⟩ :: rest => .ok (.literal (.number x), rest)
  | ⟨.text s, _⟩ :: rest => .ok (.literal (.text s), rest)
  | ⟨.name name, _⟩ :: rest => .ok (ofName name, rest)
  | ⟨.symbol .openParen, _⟩ :: rest =>
    match room with
    | 0 => tooDeep
    | room + 1 => do
      let (e, rest) ← readLevel topLevel room rest
      let rest ← expect .closeParen rest
      pure (e, rest)
  | ⟨.symbol .openBracket, _⟩ :: rest =>
    match room with
    | 0 => tooDeep
    | room + 1 =>
      if symbol? rest = some .closeBracket then .ok (.array [], rest.tail)
      else readItems room [] rest
  | ts => .error (unexpected .expression ts)
termination_by (room, 0)

/-- The items of an array up to its closing bracket, after those on `items`, last first. -/
def readItems (room : Nat) (items : List Expr) (ts : List Token) : Read := do
  let (e, rest) ← readLevel topLevel room ts
  if symbol? rest = some .closeBracket then .ok (.array (e :: items).reverse, rest.tail)
  else
    let rest ← expect .comma rest
    -- always so, since an item takes a token; the recursion has to see it
    if rest.length < ts.length then readItems room (e :: items) rest
    else .error (unexpected .expression rest)
termination_by (room, topLevel + 3 + ts.length)

end

def ofTokens (ts : List Token) : Except ExprError Expr :=
  if ts.isEmpty then .error .empty
  else do
    let (e, rest) ← readLevel topLevel maxDepth ts
    if rest.isEmpty then .ok e else .error (unexpected .endOfInput rest)

def stepAt : Symbol → Option Bool
  | .increment => some true
  | .decrement => some false
  | _ => none

def assignAt : Symbol → Option (Option BinaryOp)
  | .assign => some none
  | .plusAssign => some (some .add)
  | .minusAssign => some (some .sub)
  | .starAssign => some (some .mul)
  | .slashAssign => some (some .div)
  | _ => none

/-- The tokens after a declaration word, which is passed over in front of a name. -/
def dropDeclarator : List Token → List Token
  | ⟨.name word, o⟩ :: ⟨.name name, p⟩ :: rest =>
    if word == "let" || word == "var" || word == "const" then ⟨.name name, p⟩ :: rest
    else ⟨.name word, o⟩ :: ⟨.name name, p⟩ :: rest
  | ts => ts

def readBare (ts : List Token) : Except ExprError (Stmt × List Token) := do
  let (e, rest) ← readLevel topLevel maxDepth ts
  if symbol? rest = some .assign then .error (.invalidTarget e) else pure (.expr e, rest)

def readNamed (name : String) (rest all : List Token) : Except ExprError (Stmt × List Token) :=
  match (symbol? rest).bind stepAt, (symbol? rest).bind assignAt with
  | some up, _ => .ok (.step name up, rest.tail)
  | none, some op => do
    let (value, rest) ← readLevel topLevel maxDepth rest.tail
    pure (.assign name op value, rest)
  | none, none => readBare all

def readStatement (ts : List Token) : Except ExprError (Stmt × List Token) :=
  match dropDeclarator ts with
  | ⟨.symbol s, o⟩ :: ⟨.name name, p⟩ :: rest =>
    match stepAt s with
    | some up => .ok (.step name up, rest)
    | none => readBare (⟨.symbol s, o⟩ :: ⟨.name name, p⟩ :: rest)
  | ⟨.name name, o⟩ :: rest => readNamed name rest (⟨.name name, o⟩ :: rest)
  | ts => readBare ts

def readStatements (ts : List Token) : Except ExprError (List Stmt) :=
  match ts with
  | [] => .ok []
  | t :: rest =>
    if t.lexeme.isSymbol .semicolon then readStatements rest
    else do
      let (s, after) ← readStatement (t :: rest)
      if after.isEmpty then pure [s]
      else if symbol? after = some .semicolon then
        if after.tail.length < (t :: rest).length then
          let more ← readStatements after.tail
          pure (s :: more)
        else .error (unexpected .statementEnd after)
      else .error (unexpected .statementEnd after)
termination_by ts.length
decreasing_by
  all_goals simp only [List.length_cons, List.length_tail] at *
  all_goals omega

end ActiveMarkup.Parser

namespace ActiveMarkup

def Expr.parse (src : String) : Except ExprError Expr := do
  Parser.ofTokens (← tokenize src)

/-- The statements that a text spells. A text without tokens is an error, as it is for an
expression. -/
def Stmt.parseAll (src : String) : Except ExprError (List Stmt) := do
  let ts ← tokenize src
  if ts.isEmpty then .error .empty else Parser.readStatements ts

end ActiveMarkup
