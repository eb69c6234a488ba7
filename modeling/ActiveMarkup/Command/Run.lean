import ActiveMarkup.Command.Options
import ActiveMarkup.Document.Markup
import ActiveMarkup.Host.Console
import ActiveMarkup.Session.Scan
set_option autoImplicit false

namespace ActiveMarkup.Command

inductive TaskError where
  | reading (path cause : String)
  | parsing (path : String) (error : DocumentError)
  | notAnAssignment (word : String)
  | notAnEvent (word : String)
  | noTarget (reference : String)
  | nestedTooDeep

namespace TaskError

def message : TaskError → String
  | reading path _ => "reading " ++ path
  | parsing path _ => "parsing " ++ path
  | notAnAssignment word => "expected NAME=VALUE, got '" ++ word ++ "'"
  | notAnEvent word => "expected TARGET:EVENT, got '" ++ word ++ "'"
  | noTarget reference => "no element matches '" ++ reference ++ "'"
  | nestedTooDeep => "directives are nested too deep"

def cause? : TaskError → Option String
  | reading _ cause => some cause
  | parsing _ error => some error.message
  | _ => none

def indented (text : String) : String :=
  "    " ++ String.ofList (text.toList.flatMap fun c => if c = '\n' then "\n    ".toList else [c])

def report (e : TaskError) : String :=
  "Error: " ++ e.message ++
    (match e.cause? with
    | some cause => "\n\nCaused by:\n" ++ indented cause
    | none => "") ++ "\n"

end TaskError

/-- What a command leaves: its exit status, its output, and what it wrote to the second stream.
`starved` is that of the console. -/
structure Report where
  status : UInt8
  output : String
  messages : String
  starved : Option String
deriving DecidableEq, Repr

/-- The name and the value of an assignment. The name is what stands before the first sign of
equality, without blanks around it, and is not empty. -/
def assignment? (word : String) : Option (String × String) := do
  let (name, value) ← Text.cutAt '=' word.toList
  let name := Text.trim name
  if name.isEmpty then none else some (String.ofList name, String.ofList value)

/-- The target and the name of an event: what stands before and after the last colon, neither of
them empty. -/
def event? (word : String) : Option (String × String) := do
  let (target, event) ← Text.cutAtLast ':' word.toList
  if target.isEmpty || event.isEmpty then none
  else some (String.ofList target, String.ofList event)

def bindAll : List String → Session Console → Except TaskError (Session Console)
  | [], s => .ok s
  | word :: rest, s =>
    match assignment? word with
    | some (name, value) => bindAll rest (s.declare name (.text value))
    | none => .error (.notAnAssignment word)

def fireAll (bound : Nat) : List String → Session Console → Option TaskError × Session Console
  | [], s => (none, s)
  | word :: rest, s =>
    match event? word with
    | none => (some (.notAnEvent word), s)
    | some (reference, event) =>
      match Session.eventTarget? s.document reference with
      | none => (some (.noTarget reference), s)
      | some target =>
        match s.fire bound target event with
        | some (_, s) => fireAll bound rest s
        | none => (some .nestedTooDeep, s)

def TaskError.toReport (e : TaskError) (console : Console) : Report :=
  ⟨1, "", console.output ++ e.report, console.starved⟩

def Task.perform (task : Task) (text : String) (input : List UInt8) : Report :=
  let console := Console.ofInput input
  match Document.parse text with
  | .error e => TaskError.toReport (.parsing task.file e) console
  | .ok document =>
    match bindAll task.assignments (.ofDocument document console task.settings) with
    | .error e => e.toReport console
    | .ok s =>
      match s.run Session.ampleBound with
      | none => TaskError.nestedTooDeep.toReport console
      | some (_, s) =>
        match fireAll Session.ampleBound task.events s with
        | (some e, s) => e.toReport s.host
        | (none, s) => ⟨0, s.document.toMarkup ++ "\n", s.host.output, s.host.starved⟩

def versionLine : String := "tagwalk 0.0.1\n"

def optionHelp : List (String × String) :=
  [("      --max-loop-iterations <MAX_LOOP_ITERATIONS>",
      "Iterations a single <for>/<while> may run [default: 10000]"),
    ("      --max-call-depth <MAX_CALL_DEPTH>", "Maximum nesting of <call> [default: 256]"),
    ("      --max-mutation-rounds <MAX_MUTATION_ROUNDS>",
      "Rounds of inserted-markup processing after each pass [default: 64]"),
    ("      --no-hide", "Leave directive elements visible in the output"),
    ("      --var <NAME=VALUE>",
      "Seed a string variable before running (NAME=VALUE, repeatable)"),
    ("      --fire <TARGET:EVENT>",
      "Fire an event after the run (TARGET:EVENT, repeatable; TARGET is `window`, " ++
        "`document`, an id or a selector)"),
    ("  -v, --verbose...", "Increase log verbosity (-v debug, -vv trace)"),
    ("  -h, --help", "Print help"),
    ("  -V, --version", "Print version")]

def helpText : String :=
  "Execute directive elements in a markup document\n\nUsage: tagwalk [OPTIONS] <FILE>\n\n" ++
    "Arguments:\n  <FILE>  Markup file to run\n\nOptions:\n" ++
    String.join (optionHelp.map fun (form, use) => form ++ "\n          " ++ use ++ "\n")

def perform (words : List String) (file : String → Except String String) (input : List UInt8) :
    Report :=
  match Request.read words with
  | .error e => ⟨2, "", "error: " ++ e.message ++ "\n", none⟩
  | .ok .help => ⟨0, helpText, "", none⟩
  | .ok .version => ⟨0, versionLine, "", none⟩
  | .ok (.run task) =>
    match file task.file with
    | .error cause => TaskError.toReport (.reading task.file cause) (.ofInput [])
    | .ok text => task.perform text input

end ActiveMarkup.Command
