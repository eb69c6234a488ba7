import ActiveMarkup.Selector.Basic
import ActiveMarkup.Text.Alphanumeric
import ActiveMarkup.Text.Blank
import ActiveMarkup.Text.Cut
set_option autoImplicit false

/-!
Reading selectors. A text is first split at the commas that stand outside brackets and quotes.
A group is a chain of compounds; between two of them stand blanks, or angle brackets with blanks
around them.
-/

namespace ActiveMarkup.Selector

def inName (c : Char) : Bool :=
  Text.isAlphanumeric c || c == '-' || c == '_'

/-- The groups of a text. `group` holds the characters of the group being read, last first. -/
def groupsFrom (quote : Option Char) (depth : Nat) (group : List Char) :
    List Char → List (List Char)
  | [] => [group.reverse]
  | c :: cs =>
    match quote with
    | some q => groupsFrom (if c == q then none else some q) depth (c :: group) cs
    | none =>
      if c == '"' || c == '\'' then groupsFrom (some c) depth (c :: group) cs
      else if c == '[' then groupsFrom none (depth + 1) (c :: group) cs
      else if c == ']' then groupsFrom none (depth - 1) (c :: group) cs
      else if c == ',' && depth == 0 then group.reverse :: groupsFrom none 0 [] cs
      else groupsFrom none depth (c :: group) cs

def takeName (cs : List Char) : Except Fault (String × List Char) :=
  let name := cs.takeWhile inName
  let rest := cs.dropWhile inName
  if name.isEmpty then .error (.noName rest.head?) else .ok (String.ofList name, rest)

def takeValue (cs : List Char) : Except Fault (String × List Char) :=
  match cs with
  | c :: rest =>
    if c == '"' || c == '\'' then
      match Text.cutAt c rest with
      | some (value, rest) => .ok (String.ofList value, rest)
      | none => .error .openString
    else takeName cs
  | [] => takeName []

def takeTested (test : String → AttributeTest) (cs : List Char) :
    Except Fault (AttributeTest × List Char) := do
  let (value, rest) ← takeValue (Text.trimFront cs)
  match Text.trimFront rest with
  | ']' :: rest => pure (test value, rest)
  | _ => .error .noBracket

def takeAttribute (cs : List Char) : Except Fault ((String × AttributeTest) × List Char) := do
  let (name, rest) ← takeName (Text.trimFront cs)
  let (test, rest) ←
    match Text.trimFront rest with
    | ']' :: rest => pure (.present, rest)
    | '=' :: rest => takeTested .equals rest
    | '~' :: '=' :: rest => takeTested .includes rest
    | '^' :: '=' :: rest => takeTested .begins rest
    | '$' :: '=' :: rest => takeTested .ends rest
    | '*' :: '=' :: rest => takeTested .contains rest
    | _ => .error .malformedAttribute
  pure ((name.toLower, test), rest)

def takeConditions : Nat → Compound → List Char → Except Fault (Compound × List Char)
  | 0, compound, cs => .ok (compound, cs)
  | _ + 1, compound, [] => .ok (compound, [])
  | bound + 1, compound, c :: cs =>
    if c == '#' then do
      let (name, rest) ← takeName cs
      takeConditions bound { compound with id := some name } rest
    else if c == '.' then do
      let (name, rest) ← takeName cs
      takeConditions bound { compound with classes := compound.classes ++ [name] } rest
    else if c == '[' then do
      let (condition, rest) ← takeAttribute cs
      takeConditions bound { compound with attributes := compound.attributes ++ [condition] } rest
    else if c == ':' then .error .pseudoClass
    else if Text.isBlank c || c == '>' then .ok (compound, c :: cs)
    else .error (.unexpected c)

def takeCompound (cs : List Char) : Except Fault (Compound × List Char) :=
  match cs with
  | '*' :: rest => takeConditions rest.length .any rest
  | c :: rest =>
    if inName c then
      if c.isDigit then .error .digitFirst
      else do
        let (name, rest) ← takeName (c :: rest)
        takeConditions rest.length { Compound.any with tag := some name.toLower } rest
    else takeConditions (rest.length + 1) .any (c :: rest)
  | [] => .ok (.any, [])

/-- A selector with one more compound after its subject, which becomes the subject. -/
def extend (s : Selector) (relation : Relation) (compound : Compound) : Selector :=
  ⟨compound, (relation, s.subject) :: s.above⟩

/-- The relation at the front of a text that goes on after a compound, and what follows it. Angle
brackets may stand several times and with blanks around them. -/
def takeRelation (cs : List Char) : Relation × List Char :=
  match Text.trimFront cs with
  | '>' :: rest => (.child, rest.dropWhile fun c => Text.isBlank c || c == '>')
  | rest => (.descendant, rest)

def takeChain : Nat → Selector → List Char → Except Fault Selector
  | 0, s, _ => .ok s
  | bound + 1, s, cs =>
    if (Text.trimFront cs).isEmpty then .ok s
    else
      let (relation, rest) := takeRelation cs
      if rest.isEmpty then .error .danglingRelation
      else do
        let (compound, rest) ← takeCompound rest
        takeChain bound (s.extend relation compound) rest

def ofGroup (group : List Char) : Except Fault Selector :=
  match Text.trim group with
  | [] => .error .empty
  | '>' :: _ => .error .leadingRelation
  | cs => do
    let (compound, rest) ← takeCompound cs
    takeChain rest.length ⟨compound, []⟩ rest

def parseAll (src : String) : Except Fault (List Selector) :=
  (groupsFrom none 0 [] src.toList).mapM ofGroup

end ActiveMarkup.Selector
