import QuoteLisp.Arithmetic
import QuoteLisp.Bracket
import QuoteLisp.Command
import QuoteLisp.Console
import QuoteLisp.Directory
import QuoteLisp.Eval
import QuoteLisp.Eval.Depth
import QuoteLisp.Fault
import QuoteLisp.Main
import QuoteLisp.Node
import QuoteLisp.Node.Parser
import QuoteLisp.ParseError
import QuoteLisp.Scope
import QuoteLisp.Session
import QuoteLisp.Span
import QuoteLisp.Store
import QuoteLisp.Text.Quoted
import QuoteLisp.Text.Trim
import QuoteLisp.Text.Utf8
import QuoteLisp.Token
import QuoteLisp.Token.Lexer
import QuoteLisp.Value
import QuoteLisp.Value.Equality
import QuoteLisp.Value.Inspect
import QuoteLisp.Value.Printer
import QuoteLisp.Value.Reader
import QuoteLisp.Word
import QuoteLisp.Workspace
import QuoteLisp.Proofs.Grammar
import QuoteLisp.Proofs.Literals
import QuoteLisp.Proofs.RoundTrip
import QuoteLisp.Proofs.Chain
import QuoteLisp.Proofs.Action
import QuoteLisp.Proofs.Inversion
import QuoteLisp.Proofs.Frame
import QuoteLisp.Proofs.Bound
import QuoteLisp.Proofs.Hereditary
import QuoteLisp.Proofs.NormalForms
import QuoteLisp.Proofs.CarryNothing
import QuoteLisp.Proofs.Resolution
import QuoteLisp.Proofs.Correspondence
import QuoteLisp.Proofs.Lockstep
import QuoteLisp.Proofs.Translation
import QuoteLisp.Proofs.Renaming
import QuoteLisp.Proofs.Congruence
import QuoteLisp.Proofs.Unmentioned
import QuoteLisp.Proofs.Lexemes
import QuoteLisp.Proofs.Pieces
import QuoteLisp.Proofs.ReadBack
import QuoteLisp.Proofs.Growth
import QuoteLisp.Proofs.Brackets
import QuoteLisp.Proofs.Repair
import QuoteLisp.Proofs.Layout
import QuoteLisp.Proofs.CallChain
import QuoteLisp.Proofs.Links
import QuoteLisp.Proofs.Dialogue
import QuoteLisp.Proofs.Sinks
import QuoteLisp.Proofs.Refusals
import QuoteLisp.Proofs.Causes
import QuoteLisp.Proofs.OneLine
import QuoteLisp.Proofs.Blame
import QuoteLisp.Proofs.Places
import QuoteLisp.Proofs.Munch
import QuoteLisp.Proofs.Lossless
import QuoteLisp.Proofs.Lookup
import QuoteLisp.Proofs.Parameters
import QuoteLisp.Proofs.Unbounded
import QuoteLisp.Proofs.Abort
import QuoteLisp.Proofs.Exactness
import QuoteLisp.Proofs.Atomic
import QuoteLisp.Proofs.DefinitionFree
import QuoteLisp.Proofs.Definitions
import QuoteLisp.Proofs.Reification
import QuoteLisp.Proofs.Equivalence
import QuoteLisp.Proofs.Numerals
import QuoteLisp.Proofs.Escapes
