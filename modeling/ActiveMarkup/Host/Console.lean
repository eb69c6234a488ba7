import ActiveMarkup.Host.Basic
import ActiveMarkup.Text.Blank
set_option autoImplicit false

namespace ActiveMarkup

/-- The unread input, the output so far, and why the output is broken if it is. Once a line was
asked for that the input does not hold in full, `starved` holds what had been written by then. -/
structure Console where
  input : List UInt8
  output : String
  broken : Option String
  starved : Option String
deriving Inhabited

namespace Console

def ofInput (input : List UInt8) : Console := ⟨input, "", none, none⟩

def lineEnd : UInt8 := 10

def splitLine (bytes : List UInt8) : List UInt8 × List UInt8 :=
  let line := bytes.takeWhile (· != lineEnd)
  let rest := bytes.dropWhile (· != lineEnd)
  (line ++ rest.take 1, rest.drop 1)

def decode? (bytes : List UInt8) : Option String :=
  String.fromUTF8? ⟨bytes.toArray⟩

def chomp (line : String) : String :=
  String.ofList (line.toList.reverse.dropWhile fun c => c == '\r' || c == '\n').reverse

def writeLine (line : String) (c : Console) : List HostFailure × Console :=
  match c.broken with
  | some cause => ([.output cause], c)
  | none => ([], { c with output := c.output ++ line ++ "\n" })

def invalidText : String := "stream did not contain valid UTF-8"

def readLine (c : Console) : Option String × List HostFailure × Console :=
  let (line, rest) := splitLine c.input
  -- a line without its end may be longer than the input tells by now
  let starved := c.starved <|> if line.getLast? = some lineEnd then none else some c.output
  let c := { c with input := rest, starved }
  if line.isEmpty then (none, [], c)
  else
    match decode? line with
    | some s => (some (chomp s), [], c)
    | none => (none, [.input invalidText], c)

def agrees (answer : String) : Bool :=
  ["y", "yes", "ok", "true"].contains (Text.trimString answer).toLower

def ask (line : String) (c : Console) : Served Console (Option String) :=
  let (writing, c) := c.writeLine line
  let (answer, reading, c) := c.readLine
  ⟨answer, c, writing ++ reading, false⟩

def promptLine (message default : String) : String :=
  if default = "" then "[prompt] " ++ message
  else "[prompt] " ++ message ++ " [" ++ default ++ "]"

instance : Host Console where
  alert message c :=
    let (failures, c) := c.writeLine ("[alert] " ++ message)
    ⟨(), c, failures, false⟩
  confirm message c :=
    let served := c.ask ("[confirm] " ++ message ++ " (y/n)")
    { served with answer := served.answer.any agrees }
  prompt message default c :=
    let served := c.ask (promptLine message default)
    { served with answer := served.answer.map fun s => if s = "" then default else s }
  log message c :=
    let (failures, c) := c.writeLine message
    ⟨(), c, failures, false⟩

end Console

end ActiveMarkup
