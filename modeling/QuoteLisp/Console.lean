import QuoteLisp.Session
import QuoteLisp.Text.Trim
import QuoteLisp.Text.Utf8
import QuoteLisp.Value.Printer

/-!
# The console

Three ways to talk to a session, all of which write to a `Sink`: `Console.run` evaluates a program
and prints the results that say something, `Console.eval` evaluates one line, and `Console.repl`
prompts for lines and answers them until the input ends or asks to stop.

A sink may refuse to take more bytes; what was written until then stays written.
-/

namespace QuoteLisp

/-! ## Sinks -/

/-- Where output goes. -/
structure Sink where
  written : Bytes
  /-- How many more bytes the sink takes; without a number, any. -/
  room : Option Nat

namespace Sink

/-- A sink that takes everything. -/
def unlimited : Sink := ⟨[], none⟩

/-- A sink that takes a number of bytes and no more. -/
def limited (room : Nat) : Sink := ⟨[], some room⟩

/-- Writes bytes. The sink of an error took as many of them as it had room for. -/
def write (sink : Sink) (bytes : Bytes) : Except Sink Sink :=
  match sink.room with
  | none => .ok ⟨sink.written ++ bytes, none⟩
  | some room =>
    if bytes.length ≤ room then .ok ⟨sink.written ++ bytes, some (room - bytes.length)⟩
    else .error ⟨sink.written ++ bytes.take room, some 0⟩

/-- Writes a text. -/
def print (sink : Sink) (cs : List Char) : Except Sink Sink := sink.write (Utf8.encode cs)

/-- Writes a text and ends the line. -/
def printLine (sink : Sink) (cs : List Char) : Except Sink Sink := sink.print (cs ++ ['\n'])

end Sink

/-! ## Reports -/

namespace Console

/-- Why the console gave up. -/
inductive Failure where
  | sinkFull
  | notUtf8
  deriving DecidableEq

/-- How an exchange ended, what it wrote and the session it left. -/
structure Report (α : Type) where
  outcome : Except Failure α
  sink : Sink
  session : Session

namespace Report

/-- The report of a last write. -/
def ofWrite {α : Type} (answer : α) (session : Session) : Except Sink Sink → Report α
  | .ok sink => ⟨.ok answer, sink, session⟩
  | .error sink => ⟨.error .sinkFull, sink, session⟩

end Report

/-! ## Programs and single lines -/

/-- Prints results, one a line, leaving out those that are the empty expression. -/
def printResults : List Value → Sink → Except Sink Sink
  | [], sink => .ok sink
  | v :: vs, sink =>
    if v.isUnit then printResults vs sink
    else
      match sink.printLine v.chars with
      | .error sink => .error sink
      | .ok sink => printResults vs sink

/-- Evaluates a whole program and then prints its results. The answer is whether none of them is an
error. -/
def run (depth : Nat) (source : String) (session : Session) (sink : Sink) : Option (Report Bool) :=
  match session.evalProgram depth source with
  | none => none
  | some (results, session) =>
    some (.ofWrite (results.all fun v => !v.isError) session (printResults results sink))

/-- Evaluates one line and prints its result. The answer is whether it is no error. -/
def eval (depth : Nat) (source : String) (session : Session) (sink : Sink) : Option (Report Bool) :=
  match session.evalLine depth source with
  | none => none
  | some (v, session) => some (.ofWrite (!v.isError) session (sink.printLine v.chars))

/-! ## The interactive loop -/

def prompt : List Char := "d-lisp> ".toList

def farewell : List Char := "stopping d-lisp interpreter ...".toList

/-- The line that ends the loop. -/
def exitCommand : String := "exit"

/-- Cuts input into lines, each with its line feed; the last may have none. -/
def lines : Bytes → List Bytes
  | [] => []
  | b :: bs =>
    if b = 10 then [b] :: lines bs
    else
      match lines bs with
      | [] => [[b]]
      | line :: rest => (b :: line) :: rest

/-- What the loop does with a line. -/
inductive Reply where
  /-- The line asks to stop. -/
  | leave
  /-- The line is blank. -/
  | skip
  /-- The line was evaluated. -/
  | answer (result : Value) (session : Session)
  /-- The line is no text. -/
  | garbled

/-- The reply to one line. -/
def respond (depth : Nat) (line : Bytes) (session : Session) : Option Reply :=
  match Utf8.decode? line with
  | none => some .garbled
  | some text =>
    let source := String.ofList (trim text.toList)
    if source = exitCommand then some .leave
    else if source = "" then some .skip
    else
      match session.evalLine depth source with
      | none => none
      | some (v, session) => some (.answer v session)

/-- Prompts for each line and answers it. -/
def repl (depth : Nat) : List Bytes → Session → Sink → Option (Report Unit)
  | [], session, sink =>
    match sink.print prompt with
    | .error sink => some ⟨.error .sinkFull, sink, session⟩
    | .ok sink => some (.ofWrite () session (sink.printLine ('\n' :: farewell)))
  | line :: rest, session, sink =>
    match sink.print prompt with
    | .error sink => some ⟨.error .sinkFull, sink, session⟩
    | .ok sink =>
      match respond depth line session with
      | none => none
      | some .garbled => some ⟨.error .notUtf8, sink, session⟩
      | some .leave => some (.ofWrite () session (sink.printLine farewell))
      | some .skip => repl depth rest session sink
      | some (.answer v session) =>
        match sink.printLine v.chars with
        | .error sink => some ⟨.error .sinkFull, sink, session⟩
        | .ok sink => repl depth rest session sink

end Console

end QuoteLisp
