import Turtle.Execution.Rules
import Turtle.Main
import Turtle.Proofs.Grammar.Rules
import Turtle.Proofs.Grammar.Travel
import Turtle.Proofs.Grammar.Answer
import Turtle.Proofs.Grammar.Soundness
import Turtle.Proofs.Grammar.Completeness
import Turtle.Proofs.Grammar.Acceptance
import Turtle.Proofs.Grammar.FirstFault
import Turtle.Proofs.Execution.BigStep
import Turtle.Proofs.Lexing.Spelling
import Turtle.Proofs.Lexing.Spelled
import Turtle.Proofs.Program.Shape
import Turtle.Proofs.Program.Reread
import Turtle.Proofs.Program.Written
import Turtle.Proofs.Program.RoundTrip
import Turtle.Proofs.Lexing.Patterns
import Turtle.Proofs.Lexing.Longest
import Turtle.Proofs.Execution.Knowledge
import Turtle.Proofs.Execution.Moments
import Turtle.Proofs.Execution.Sinks
import Turtle.Proofs.Sink.Records
import Turtle.Proofs.Sink.Session
import Turtle.Proofs.Sink.Bounded
import Turtle.Proofs.Lexing.LineBreak
import Turtle.Proofs.Lexing.BlockComment
import Turtle.Proofs.Grammar.Neighbours
import Turtle.Proofs.Program.Composition
import Turtle.Proofs.Lexing.Requests
import Turtle.Proofs.Program.FaultLine
import Turtle.Proofs.Number.Negation
import Turtle.Proofs.Program.Replay
import Turtle.Proofs.Program.Image
import Turtle.Proofs.CommandLine.Agreement
import Turtle.Proofs.CommandLine.Words
import Turtle.Proofs.Execution.Names
import Turtle.Proofs.Execution.Causes
import Turtle.Proofs.Execution.Tests
import Turtle.Proofs.CommandLine.Assignments
import Turtle.Proofs.Program.Legible
import Turtle.Proofs.Execution.Laws
import Turtle.Proofs.Sink.Reader
import Turtle.Proofs.Program.Cascade
import Turtle.Proofs.Program.OneLine
