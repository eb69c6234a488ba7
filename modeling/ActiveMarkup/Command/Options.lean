import ActiveMarkup.Session.Basic
import ActiveMarkup.Text.Cut
import ActiveMarkup.Text.Digit
set_option autoImplicit false

namespace ActiveMarkup.Command

inductive ValueOption where
  | loops
  | calls
  | rounds
  | assignment
  | event
deriving DecidableEq, Repr

inductive Switch where
  | showAll
  | verbose
  | help
  | version
deriving DecidableEq, Repr

inductive UsageError where
  | unknownOption (word : String)
  | missingValue (word : String)
  | unwantedValue (word : String)
  | repeated (word : String)
  | notALimit (word value : String)
  | unexpectedWord (word : String)
  | noFile
deriving DecidableEq, Repr

def UsageError.message : UsageError → String
  | unknownOption word => "unexpected argument '" ++ word ++ "' found"
  | missingValue word => "a value is required for '" ++ word ++ "' but none was supplied"
  | unwantedValue word => "no value is taken by '" ++ word ++ "' but one was supplied"
  | repeated word => "the argument '" ++ word ++ "' cannot be used multiple times"
  | notALimit word value => "invalid value '" ++ value ++ "' for '" ++ word ++ "'"
  | unexpectedWord word => "unexpected argument '" ++ word ++ "' found"
  | noFile => "a file is required"

structure Task where
  file : String
  settings : Settings
  assignments : List String
  events : List String
deriving DecidableEq, Repr

inductive Request where
  | run (task : Task)
  | help
  | version
deriving DecidableEq, Repr

structure Draft where
  file : Option String
  loops : Option Nat
  calls : Option Nat
  rounds : Option Nat
  showAll : Bool
  verbosity : Nat
  assignments : List String
  events : List String

def Draft.empty : Draft := ⟨none, none, none, none, false, 0, [], []⟩

def ValueOption.ofName? : String → Option ValueOption
  | "max-loop-iterations" => some .loops
  | "max-call-depth" => some .calls
  | "max-mutation-rounds" => some .rounds
  | "var" => some .assignment
  | "fire" => some .event
  | _ => none

def Switch.ofName? : String → Option Switch
  | "no-hide" => some showAll
  | "verbose" => some verbose
  | "help" => some help
  | "version" => some version
  | _ => none

def Switch.ofLetter? : Char → Option Switch
  | 'v' => some verbose
  | 'h' => some help
  | 'V' => some version
  | _ => none

def greatestLimit : Nat := UInt64.size - 1

/-- A limit in decimal, with a plus sign in front or not. -/
def limit? (value : String) : Option Nat :=
  (Text.unsigned? 10 value.toList).filter (· ≤ greatestLimit)

namespace Draft

def takeLimit (word value : String) (before : Option Nat) (put : Nat → Draft) :
    Except UsageError Draft :=
  if before.isSome then .error (.repeated word)
  else
    match limit? value with
    | some n => .ok (put n)
    | none => .error (.notALimit word value)

def takeValue (d : Draft) (word : String) (value : String) :
    ValueOption → Except UsageError Draft
  | .loops => takeLimit word value d.loops fun n => { d with loops := some n }
  | .calls => takeLimit word value d.calls fun n => { d with calls := some n }
  | .rounds => takeLimit word value d.rounds fun n => { d with rounds := some n }
  | .assignment => .ok { d with assignments := d.assignments ++ [value] }
  | .event => .ok { d with events := d.events ++ [value] }

def takeFile (d : Draft) (word : String) : Except UsageError Draft :=
  if d.file.isSome || word = "" then .error (.unexpectedWord word)
  else .ok { d with file := some word }

def finish (d : Draft) : Except UsageError Request :=
  match d.file with
  | none => .error .noFile
  | some file =>
    let standard := Settings.standard
    .ok (.run
      { file
        settings :=
          { loops := d.loops.getD standard.loops
            calls := d.calls.getD standard.calls
            rounds := d.rounds.getD standard.rounds
            hide := !d.showAll
            trace := decide (2 ≤ d.verbosity) }
        assignments := d.assignments
        events := d.events })

end Draft

inductive Progress where
  | more (d : Draft)
  | settled (r : Request)

def Draft.takeSwitch (d : Draft) (word : String) : Switch → Except UsageError Progress
  | .showAll =>
    if d.showAll then .error (.repeated word) else .ok (.more { d with showAll := true })
  | .verbose => .ok (.more { d with verbosity := d.verbosity + 1 })
  | .help => .ok (.settled .help)
  | .version => .ok (.settled .version)

def Draft.takeLetters (d : Draft) (word : String) : List Char → Except UsageError Progress
  | [] => .ok (.more d)
  | c :: cs =>
    match Switch.ofLetter? c with
    | none => .error (.unknownOption word)
    | some switch => do
      match ← d.takeSwitch word switch with
      | .more d => d.takeLetters word cs
      | .settled r => .ok (.settled r)

inductive Word where
  | separator
  | long (name : String) (value : Option String)
  | letters (cs : List Char)
  | plain

def Word.of (word : String) : Word :=
  match word.toList with
  | ['-', '-'] => separator
  | '-' :: '-' :: cs =>
    match Text.cutAt '=' cs with
    | some (name, value) => long (String.ofList name) (some (String.ofList value))
    | none => long (String.ofList cs) none
  | '-' :: c :: cs => letters (c :: cs)
  | _ => plain

def isValue (word : String) : Bool :=
  match Word.of word with
  | .plain => true
  | _ => false

/-- Read the words after the word of two dashes: none of them is an option. -/
def readPlain : Draft → List String → Except UsageError Request
  | d, [] => d.finish
  | d, word :: rest => do readPlain (← d.takeFile word) rest

def readWords : Draft → List String → Except UsageError Request
  | d, [] => d.finish
  | d, word :: rest =>
    match Word.of word with
    | .separator => readPlain d rest
    | .plain => do readWords (← d.takeFile word) rest
    | .letters cs => do
      match ← d.takeLetters word cs with
      | .more d => readWords d rest
      | .settled r => .ok r
    | .long name attached =>
      match ValueOption.ofName? name, Switch.ofName? name, attached with
      | some option, _, some value => do readWords (← d.takeValue word value option) rest
      | some option, _, none =>
        match rest with
        | value :: rest =>
          if isValue value then do readWords (← d.takeValue word value option) rest
          else .error (.missingValue word)
        | [] => .error (.missingValue word)
      | none, some _, some _ => .error (.unwantedValue word)
      | none, some switch, none => do
        match ← d.takeSwitch word switch with
        | .more d => readWords d rest
        | .settled r => .ok r
      | none, none, _ => .error (.unknownOption word)

def Request.read (words : List String) : Except UsageError Request :=
  readWords .empty words

end ActiveMarkup.Command
