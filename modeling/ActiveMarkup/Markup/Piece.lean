import ActiveMarkup.Document.Element
import ActiveMarkup.Markup.Entity
import ActiveMarkup.Markup.Fault
set_option autoImplicit false

/-!
The pieces that a markup text is made of: comments, opening and closing tags, elements without
content, elements with raw text, and runs of text. Declarations are passed over. Splitting a text
into pieces does not look at the tree; only a break-off inside a piece is an error, and the pieces
before it are kept.
-/

namespace ActiveMarkup.Markup

inductive Piece where
  | comment (s : String)
  | opening (e : Element)
  | leaf (e : Element)
  | verbatim (e : Element) (s : String)
  | closing (tag : String)
  | text (s : String)

/-- A break-off: what is left open, and the text from the place that the message names. -/
abbrev Break := Fault × List Char

/-- The name of an attribute: lower case, apart from what follows `style.` -/
def attributeName (raw : List Char) : String :=
  if Text.sameIgnoringCase (raw.take 6) "style.".toList then
    "style." ++ String.ofList (raw.drop 6)
  else (String.ofList raw).toLower

/-- An element with one more attribute. The first of two attributes of one name counts, and the
last of two styles. -/
def addAttribute (e : Element) (name value : String) : Element :=
  if name = "style" then { e with style := Style.parse value }
  else { e with attributes := Table.insertNew e.attributes name value }

def inTagName (c : Char) : Bool :=
  !(Text.isBlank c || c == '>' || c == '/')

def inAttributeName (c : Char) : Bool :=
  !(Text.isBlank c || c == '=' || c == '>' || c == '/')

def inBareValue (c : Char) : Bool :=
  !(Text.isBlank c || c == '>')

def readValue (cs : List Char) : Except Break (String × List Char) :=
  match cs with
  | c :: rest =>
    if c == '"' || c == '\'' then
      match Text.cutAt c rest with
      | some (value, rest) => .ok (String.ofList (decode value), rest)
      | none => .error (.openValue, cs)
    else .ok (String.ofList (decode (cs.takeWhile inBareValue)), cs.dropWhile inBareValue)
  | [] => .ok ("", [])

def readAssigned (cs : List Char) : Except Break (String × List Char) :=
  match Text.trimFront cs with
  | '=' :: rest => readValue (Text.trimFront rest)
  | rest => .ok ("", rest)

/-- The attributes of a tag up to its end, and whether it ends with a slash. A slash elsewhere and
an equals sign without a name are passed over. The bound is on the number of characters. -/
def readAttributes : Nat → Element → List Char → Except Break (Element × Bool × List Char)
  | 0, e, _ => .error (.openTag e.tag, [])
  | bound + 1, e, cs =>
    match Text.trimFront cs with
    | [] => .error (.openTag e.tag, [])
    | '/' :: '>' :: rest => .ok (e, true, rest)
    | '>' :: rest => .ok (e, false, rest)
    | '/' :: rest => readAttributes bound e rest
    | c :: rest =>
      let name := (c :: rest).takeWhile inAttributeName
      if name.isEmpty then readAttributes bound e rest
      else do
        let (value, rest) ← readAssigned ((c :: rest).dropWhile inAttributeName)
        readAttributes bound (addAttribute e (attributeName name) value) rest

def readTag (cs : List Char) : Except Break (Element × Bool × List Char) :=
  let rest := cs.dropWhile inTagName
  readAttributes (rest.length + 1) (.ofTag (String.ofList (cs.takeWhile inTagName))) rest

/-- The raw text of an element, and what follows its closing tag. Without a closing tag the text
goes on to the end; a closing tag without an angle bracket is left to be read. -/
def readRaw (tag : String) (cs : List Char) : String × List Char :=
  let mark := "</".toList ++ tag.toList
  let (raw, rest) :=
    Text.breakWhere (fun cs => Text.sameIgnoringCase (cs.take mark.length) mark) [] cs
  (String.ofList raw,
    match Text.cutAt '>' rest with
    | some (_, after) => after
    | none => rest)

def ofTag (e : Element) (closed : Bool) (rest : List Char) : Piece × List Char :=
  if closed || isVoidTag e.tag then (.leaf e, rest)
  else if isRawTextTag e.tag then
    let (raw, rest) := readRaw e.tag rest
    (.verbatim e raw, rest)
  else (.opening e, rest)

/-- The next piece of a text that starts with `c`, if it is not a declaration, and what follows
it. -/
def nextPiece (c : Char) (cs : List Char) : Except Break (Option Piece × List Char) :=
  match c, cs with
  | '<', '!' :: '-' :: '-' :: rest =>
    match Text.cutAtWord "-->".toList rest with
    | some (s, rest) => .ok (some (.comment (String.ofList s)), rest)
    | none => .error (.openComment, c :: cs)
  | '<', '!' :: rest | '<', '?' :: rest =>
    match Text.cutAt '>' rest with
    | some (_, rest) => .ok (none, rest)
    | none => .error (.openDeclaration, c :: cs)
  | '<', '/' :: rest =>
    match Text.cutAt '>' rest with
    | some (name, rest) =>
      .ok (some (.closing (Text.trimString (String.ofList name)).toLower), rest)
    | none => .error (.openCloseTag, c :: cs)
  | '<', d :: rest =>
    if d.isAlpha then do
      let (e, closed, rest) ← readTag (d :: rest)
      let (piece, rest) := ofTag e closed rest
      pure (some piece, rest)
    else
      -- an angle bracket that starts nothing else is text
      .ok (some (.text (String.ofList (decode (c :: cs.takeWhile (· != '<'))))),
        cs.dropWhile (· != '<'))
  | c, cs =>
    .ok (some (.text (String.ofList (decode (c :: cs.takeWhile (· != '<'))))),
      cs.dropWhile (· != '<'))

/-- The pieces of a text and the break-off that ends them, if there is one. The bound is on the
number of characters. -/
def piecesWithin : Nat → List Char → List Piece × Option Break
  | 0, _ => ([], none)
  | _ + 1, [] => ([], none)
  | bound + 1, c :: cs =>
    match nextPiece c cs with
    | .error e => ([], some e)
    | .ok (piece, rest) =>
      let (more, error) := piecesWithin bound rest
      (piece.toList ++ more, error)

def pieces (src : String) : List Piece × Option (Fault × Nat) :=
  let cs := src.toList
  let (found, error) := piecesWithin cs.length cs
  (found, error.map fun (fault, rest) => (fault, Text.byteSize cs - Text.byteSize rest))

end ActiveMarkup.Markup
