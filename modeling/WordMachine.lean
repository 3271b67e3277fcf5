import WordMachine.Asm.Code
import WordMachine.Asm.Keyword
import WordMachine.Asm.Literal
import WordMachine.Asm.Parse
import WordMachine.Asm.Rule
import WordMachine.Asm.Syntax
import WordMachine.Asm.Token
import WordMachine.Cli.Command
import WordMachine.Cli.Files
import WordMachine.Cli.Integer
import WordMachine.Cli.Options
import WordMachine.Image
import WordMachine.LoadError
import WordMachine.Machine.Basic
import WordMachine.Machine.Console
import WordMachine.Machine.Fault
import WordMachine.Machine.Host
import WordMachine.Machine.Memory
import WordMachine.Machine.Step
import WordMachine.Main
import WordMachine.Opcode
import WordMachine.Proofs.Asm.AnyOrder
import WordMachine.Proofs.Asm.Backpatch
import WordMachine.Proofs.Asm.Boundary
import WordMachine.Proofs.Asm.Diagnostics
import WordMachine.Proofs.Asm.Layout
import WordMachine.Proofs.Asm.Lexing
import WordMachine.Proofs.Asm.Lines
import WordMachine.Proofs.Asm.Listing
import WordMachine.Proofs.Asm.Locations
import WordMachine.Proofs.Asm.Names
import WordMachine.Proofs.Asm.Phrases
import WordMachine.Proofs.Asm.RawText
import WordMachine.Proofs.Asm.ReadBack
import WordMachine.Proofs.Asm.Renaming
import WordMachine.Proofs.Asm.Sequence
import WordMachine.Proofs.Asm.Sound
import WordMachine.Proofs.Asm.Spelling
import WordMachine.Proofs.Asm.TokenText
import WordMachine.Proofs.Asm.Tokens
import WordMachine.Proofs.Asm.Trailers
import WordMachine.Proofs.Asm.TwoPass
import WordMachine.Proofs.Asm.Written
import WordMachine.Proofs.Cli.AllOrNothing
import WordMachine.Proofs.Cli.Arguments
import WordMachine.Proofs.Cli.Chain
import WordMachine.Proofs.Cli.Loading
import WordMachine.Proofs.Cli.Outcome
import WordMachine.Proofs.Cli.Safety
import WordMachine.Proofs.Cli.Writing
import WordMachine.Proofs.Console.Chunks
import WordMachine.Proofs.Console.Converse
import WordMachine.Proofs.Console.Limit
import WordMachine.Proofs.Console.LineEcho
import WordMachine.Proofs.Console.Stream
import WordMachine.Proofs.Console.Turns
import WordMachine.Proofs.Console.Values
import WordMachine.Proofs.Execution.Agreement
import WordMachine.Proofs.Execution.PrintLoop
import WordMachine.Proofs.Execution.Reading
import WordMachine.Proofs.Image
import WordMachine.Proofs.Machine.Atomicity
import WordMachine.Proofs.Machine.Bare
import WordMachine.Proofs.Machine.Cells
import WordMachine.Proofs.Machine.Counterpart
import WordMachine.Proofs.Machine.Effect
import WordMachine.Proofs.Machine.Failing
import WordMachine.Proofs.Machine.Faulting
import WordMachine.Proofs.Machine.Forward
import WordMachine.Proofs.Machine.InOrder
import WordMachine.Proofs.Machine.Linkage
import WordMachine.Proofs.Machine.Locality
import WordMachine.Proofs.Machine.Matching
import WordMachine.Proofs.Machine.OperandWords
import WordMachine.Proofs.Machine.Protocol
import WordMachine.Proofs.Machine.Representation
import WordMachine.Proofs.Machine.Running
import WordMachine.Proofs.Machine.Session
import WordMachine.Proofs.Machine.Stack
import WordMachine.Proofs.Machine.Status
import WordMachine.Proofs.Machine.Stopping
import WordMachine.Proofs.Machine.Table
import WordMachine.Proofs.Machine.Transition
import WordMachine.Proofs.Machine.Values
import WordMachine.Proofs.Text.Place
import WordMachine.Proofs.Text.Utf8
import WordMachine.Text.DecimalDigit
import WordMachine.Text.Hex
import WordMachine.Text.Newlines
import WordMachine.Text.Numeral
import WordMachine.Text.Place
import WordMachine.Text.Printable
import WordMachine.Text.Quote
import WordMachine.Text.Ranges
import WordMachine.Text.Tabs
import WordMachine.Text.Utf8
import WordMachine.Text.WordChar
import WordMachine.Word
