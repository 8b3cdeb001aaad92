import Lox.Main
import Lox.Tree.Equality
import Lox.Proofs.Token.Spelled
import Lox.Proofs.Token.Lexeme
import Lox.Proofs.Token.Numeral
import Lox.Proofs.Token.MaximalMunch
import Lox.Proofs.Token.Apart
import Lox.Proofs.Token.Joined
import Lox.Proofs.Token.Lines
import Lox.Proofs.Token.Spaced
import Lox.Proofs.Token.Fixed
import Lox.Proofs.Grammar.Derivation
import Lox.Proofs.Grammar.DanglingElse
import Lox.Proofs.Grammar.Reads
import Lox.Proofs.Grammar.Completeness
import Lox.Proofs.Grammar.Parses
import Lox.Proofs.Grammar.Soundness
import Lox.Proofs.Grammar.Sentences
import Lox.Proofs.Tree.Formed
import Lox.Proofs.Tree.Parsed
import Lox.Proofs.Tree.Printable
import Lox.Proofs.Tree.Orderly
import Lox.Proofs.Tree.Form
import Lox.Proofs.Tree.Outlined
import Lox.Proofs.Tree.Written
import Lox.Proofs.Tree.Unlined
import Lox.Proofs.Text.Quoted
import Lox.Proofs.Decimal.Interval
import Lox.Proofs.Decimal.Text
import Lox.Proofs.Number
import Lox.Proofs.Carries
import Lox.Proofs.Grammar.Yields
import Lox.Proofs.Grammar.Gives
import Lox.Proofs.Grammar.Unparse
import Lox.Proofs.Grammar.Regular
import Lox.Proofs.Grammar.Reparse
import Lox.Proofs.Grammar.Unlined
import Lox.Proofs.Machine.Grows
import Lox.Proofs.Machine.Sound
import Lox.Proofs.Machine.Links
import Lox.Proofs.Machine.Evolves
import Lox.Proofs.Machine.Receivers
import Lox.Proofs.Machine.Changes
import Lox.Proofs.Evaluation.Keeps
import Lox.Proofs.Evaluation.Continues
import Lox.Proofs.Evaluation.Alters
import Lox.Proofs.Evaluation.Evolution
import Lox.Proofs.Evaluation.Calls
import Lox.Proofs.Session.Reachable
import Lox.Proofs.Session.Locals
import Lox.Proofs.Session.Receivers
import Lox.Proofs.Session.Unstuck
import Lox.Proofs.Evaluation.Raising
import Lox.Proofs.Evaluation.Signals
import Lox.Proofs.Evaluation.Lexical
import Lox.Proofs.Evaluation.Standing
import Lox.Proofs.Evaluation.Following
import Lox.Proofs.Evaluation.Agreement
import Lox.Proofs.Evaluation.Unlined
import Lox.Proofs.Session.Scoping
import Lox.Proofs.Session.Store
import Lox.Proofs.Scope
import Lox.Proofs.Session.Layout
import Lox.Proofs.Session.Printed
import Lox.Proofs.Session.Stopping
import Lox.Proofs.Evaluation.Deepens
import Lox.Proofs.Grammar.Persists
import Lox.Proofs.Grammar.Progress
import Lox.Proofs.Grammar.Plain
import Lox.Proofs.Session.Rejected
import Lox.Proofs.Grammar.Segments
import Lox.Proofs.Evaluation.Contained
import Lox.Proofs.Session.Limits
import Lox.Proofs.Grammar.Braces
import Lox.Proofs.CommandLine.Exhaustion
import Lox.Proofs.Prompt.Lines
import Lox.Proofs.Grammar.Breaks
import Lox.Proofs.Grammar.Twins
import Lox.Proofs.Grammar.Earliest
import Lox.Proofs.Session.Properties
import Lox.Proofs.Machine.Alike
import Lox.Proofs.Evaluation.Alike
import Lox.Proofs.Evaluation.ForLoop
import Lox.Proofs.Session.ForLoops
import Lox.Proofs.Evaluation.Arity
import Lox.Proofs.Session.Arity
import Lox.Proofs.Prompt.Shortest
import Lox.Proofs.Session.Echoed
import Lox.Proofs.Decimal.Sign
import Lox.Proofs.Tree.Equality
import Lox.Proofs.Session.Serving
