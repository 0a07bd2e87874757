import QuoteLisp.Console
import QuoteLisp.Directory

/-!
# The command line

`Command.ofArgs` says what the arguments ask for and `Command.execute` what comes of it: the bytes
for standard output, the text for standard error, and the exit code.
-/

namespace QuoteLisp

inductive Command where
  | repl
  | run (path : String)
  | runWithoutFile
  | eval (source : String)
  | evalWithoutExpression
  | help
  | version
  | unknown (name : String)

namespace Command

/-- The command that the arguments give. Further arguments of `eval` belong to its expression, those
of other commands are ignored. -/
def ofArgs : List String → Command
  | [] => repl
  | name :: args =>
    if name = "run" then
      match args with
      | [] => runWithoutFile
      | path :: _ => run path
    else if name = "eval" then
      if args.isEmpty then evalWithoutExpression else eval (" ".intercalate args)
    else if name = "help" ∨ name = "--help" ∨ name = "-h" then help
    else if name = "--version" ∨ name = "-V" then version
    else unknown name

/-- The explanation of the commands. -/
def usage : String :=
  "d-lisp interpreter\n\n" ++
  "Usage: dlisp [command] [args]\n\n" ++
  "Commands:\n" ++
  s!"  (none)             Start the interactive REPL (`{Console.exitCommand}` to quit)\n" ++
  "  run <file>         Evaluate every expression in a file\n" ++
  "  eval <expression>  Evaluate one expression and print the result\n" ++
  "  help               Show this message\n\n" ++
  "Set RUST_LOG (e.g. RUST_LOG=dlisp_eval=trace) for diagnostic output.\n"

/-- What a command writes and its exit code. -/
structure Outcome where
  stdout : Bytes
  stderr : String
  exit : Nat

namespace Outcome

/-- Something said on standard error only, and failure. -/
def refusal (stderr : String) : Outcome := ⟨[], stderr, 1⟩

/-- The text about a console that gave up. -/
def failureText : Console.Failure → String
  | .sinkFull => "write failed"
  | .notUtf8 => "stream did not contain valid UTF-8"

/-- The outcome of an exchange, where `success` tells good answers from bad ones. -/
def ofReport {α : Type} (success : α → Bool) (report : Console.Report α) : Outcome :=
  match report.outcome with
  | .ok answer => ⟨report.sink.written, "", if success answer then 0 else 1⟩
  | .error failure => ⟨report.sink.written, s!"error: {failureText failure}\n", 1⟩

end Outcome

/-- The source text in a file, or the message that there is none. -/
def source (files : String → Except FileError Bytes) (path : String) : Except String String :=
  match files path with
  | .error e => .error (e.message path)
  | .ok bytes =>
    match Utf8.decode? bytes with
    | none => .error s!"'{path}' contains invalid UTF-8 data"
    | some text => .ok text

/-- Carries out a command on a fresh session. -/
def execute (depth : Nat) (files : String → Except FileError Bytes) (stdin : Bytes) :
    Command → Option Outcome
  | repl => (Console.repl depth (Console.lines stdin) .new .unlimited).map (.ofReport fun _ => true)
  | run path =>
    match source files path with
    | .error message => some (.refusal s!"error: {message}\n")
    | .ok text => (Console.run depth text .new .unlimited).map (.ofReport id)
  | runWithoutFile => some (.refusal "Usage: dlisp run <file>\n")
  | eval text => (Console.eval depth text .new .unlimited).map (.ofReport id)
  | evalWithoutExpression => some (.refusal "Usage: dlisp eval <expression>\n")
  | help => some ⟨Utf8.encode usage.toList, "", 0⟩
  | version => some ⟨Utf8.encode "dlisp 0.1.0\n".toList, "", 0⟩
  | unknown name => some ⟨Utf8.encode usage.toList, s!"Unknown command: {name}\n\n", 1⟩

end Command

end QuoteLisp
