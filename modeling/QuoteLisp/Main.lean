import QuoteLisp.Command

/-!
# The program

Reads the arguments, the files and the standard input that a command needs, and writes what comes of
it. The interactive loop answers each line before it reads the next.
-/

namespace QuoteLisp

/-- The bytes of a file on disk. -/
def readPath (path : String) : IO (Except FileError Bytes) := do
  try
    return .ok (← IO.FS.readBinFile path).toList
  catch e =>
    return .error <|
      match e with
      | .noFileOrDirectory .. => .notFound
      | .permissionDenied .. => .permissionDenied
      -- The system's code may arrive negated.
      | .inappropriateType _ code _ =>
        if code = 20 ∨ code = -20 then .notADirectory else .isDirectory
      | other => .system (toString other)

/-- The next line of input with its line feed; empty at the end of input. -/
partial def readLine (stdin : IO.FS.Stream) (line : ByteArray) : IO ByteArray := do
  let next ← stdin.read 1
  if next.isEmpty then return line
  let line := line ++ next
  if next.toList = [10] then return line else readLine stdin line

def putChars (cs : List Char) : IO Unit := do
  let stdout ← IO.getStdout
  stdout.putStr (String.ofList cs)
  stdout.flush

/-- Says that an evaluation was given up. -/
def giveUp : IO UInt32 := do
  IO.eprintln "error: evaluation is nested too deeply"
  return 1

/-- The interactive loop on standard input and output. -/
partial def interact (session : Session) : IO UInt32 := do
  putChars Console.prompt
  let line ← readLine (← IO.getStdin) .empty
  if line.isEmpty then
    putChars ('\n' :: Console.farewell ++ ['\n'])
    return 0
  match Console.respond defaultDepth line.toList session with
  | none => giveUp
  | some .garbled =>
    IO.eprintln s!"error: {Command.Outcome.failureText .notUtf8}"
    return 1
  | some .leave =>
    putChars (Console.farewell ++ ['\n'])
    return 0
  | some .skip => interact session
  | some (.answer v session) =>
    putChars (v.chars ++ ['\n'])
    interact session

/-- Carries out a command whose input is known beforehand. -/
def runCommand (files : String → Except FileError Bytes) (command : Command) : IO UInt32 := do
  match command.execute defaultDepth files [] with
  | none => giveUp
  | some outcome =>
    IO.eprint outcome.stderr
    let stdout ← IO.getStdout
    stdout.write ⟨outcome.stdout.toArray⟩
    stdout.flush
    return outcome.exit.toUInt32

end QuoteLisp

open QuoteLisp in
def main (args : List String) : IO UInt32 := do
  match Command.ofArgs args with
  | .repl => interact .new
  | .run path =>
    let contents ← readPath path
    runCommand (fun _ => contents) (.run path)
  | command => runCommand (fun _ => .error .notFound) command
