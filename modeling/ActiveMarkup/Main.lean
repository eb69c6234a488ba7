import ActiveMarkup.Command.Run
set_option autoImplicit false

/-!
The command. A command line is carried out by a pure function of its words, its file and its input.
Here that function is rerun on the input read so far: as long as it asks for a line that was not
read yet, what it had written by then is shown and one more line is read.
-/

namespace ActiveMarkup.Command

def readText (path : String) : IO (Except String String) := do
  try
    let bytes ← IO.FS.readBinFile path
    return (String.fromUTF8? bytes).elim (.error Console.invalidText) .ok
  catch
    | .noFileOrDirectory .. => return .error "No such file or directory (os error 2)"
    | e => return .error (toString e)

def fileOf (words : List String) : IO (Except String String) :=
  match Request.read words with
  | .ok (.run task) => readText task.file
  | _ => return .error ""

partial def readLineAfter (stream : IO.FS.Stream) (before : ByteArray) : IO ByteArray := do
  let next ← stream.read 1
  if next.isEmpty || next.toList = [Console.lineEnd] then return before ++ next
  readLineAfter stream (before ++ next)

def writeFrom (shown : Nat) (text : String) (stream : IO.FS.Stream) : IO Unit := do
  stream.putStr (String.ofList (text.toList.drop shown))
  stream.flush

/-- Carry out a command line on the input read so far, and read on when it asks for more. -/
partial def converse (words : List String) (file : Except String String) (shown : Nat)
    (input : ByteArray) (ended : Bool) : IO UInt32 := do
  let report := perform words (fun _ => file) input.toList
  match report.starved, ended with
  | some written, false =>
    writeFrom shown written (← IO.getStderr)
    let line ← readLineAfter (← IO.getStdin) .empty
    converse words file written.length (input ++ line)
      (line.toList.getLast? != some Console.lineEnd)
  | _, _ =>
    writeFrom shown report.messages (← IO.getStderr)
    writeFrom 0 report.output (← IO.getStdout)
    return report.status.toUInt32

end ActiveMarkup.Command

def main (words : List String) : IO UInt32 := do
  ActiveMarkup.Command.converse words (← ActiveMarkup.Command.fileOf words) 0 .empty false
