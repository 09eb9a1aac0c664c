import ShellArgs.Text.Blank
import ShellArgs.Text.Line
import ShellArgs.Text.Raw
import ShellArgs.Text.Digit
import ShellArgs.Text.WordChar
import ShellArgs.Text.Upper
import ShellArgs.Shell.Word
import ShellArgs.Shell.Pattern
import ShellArgs.Decimal.Binary
import ShellArgs.Decimal.Digits
import ShellArgs.Decimal.Written
import ShellArgs.Decimal.Literal
import ShellArgs.Decimal.Field
import ShellArgs.Ordered
import ShellArgs.Json.Basic
import ShellArgs.Json.Reader
import ShellArgs.Json.Printer
import ShellArgs.Json.Overlay
import ShellArgs.Diagnostic
import ShellArgs.Param.Basic
import ShellArgs.Param.Label
import ShellArgs.Directive.Basic
import ShellArgs.Directive.Lexer
import ShellArgs.Directive.Scan
import ShellArgs.Descriptor.Rule
import ShellArgs.Descriptor.Grammar
import ShellArgs.Descriptor.Read
import ShellArgs.Tree.Command
import ShellArgs.Tree.Basic
import ShellArgs.Tree.Builder
import ShellArgs.Json.Typed
import ShellArgs.Record
import ShellArgs.Tree.Validation
import ShellArgs.Shell.Code
import ShellArgs.Options
import ShellArgs.Routine.Arm
import ShellArgs.Routine.Binding
import ShellArgs.Routine.Usage
import ShellArgs.Routine.Parse
import ShellArgs.Script
import ShellArgs.Text.Cut
import ShellArgs.Compilation
import ShellArgs.Completion.Words
import ShellArgs.Completion.Cursor
import ShellArgs.Completion.Candidates
import ShellArgs.Completion.Hook
import ShellArgs.Completion.Registration
import ShellArgs.Inlining
import ShellArgs.Settings.Basic
import ShellArgs.Settings.Layers
import ShellArgs.Settings.Edit
import ShellArgs.Files.Path
import ShellArgs.Files.Basic
import ShellArgs.Files.Replacement
import ShellArgs.Session.Printer
import ShellArgs.Session.Arguments
import ShellArgs.Session.Invocation
import ShellArgs.Session.Basic
import ShellArgs.Session.Commands
import ShellArgs.Session.Run
import ShellArgs.Main
import ShellArgs.Proofs.Outcome
import ShellArgs.Proofs.Matching
import ShellArgs.Proofs.Tree.Joined
import ShellArgs.Proofs.Tree.Way
import ShellArgs.Proofs.Tree.Sound
import ShellArgs.Proofs.Tree.Growth
import ShellArgs.Proofs.Tree.Called
import ShellArgs.Proofs.Tree.Visits
import ShellArgs.Proofs.Tree.Walk
import ShellArgs.Proofs.Tree.References
import ShellArgs.Proofs.Tree.Preorder
import ShellArgs.Proofs.Tree.Validation
import ShellArgs.Proofs.Tree.Structure
import ShellArgs.Proofs.Tree.Rejection
import ShellArgs.Proofs.Descriptor.Characters
import ShellArgs.Proofs.Descriptor.Runs
import ShellArgs.Proofs.Descriptor.Declarations
import ShellArgs.Proofs.Descriptor.Forms
import ShellArgs.Proofs.Descriptor.Parsing
import ShellArgs.Proofs.Descriptor.Notation
import ShellArgs.Proofs.Descriptor.Written
import ShellArgs.Proofs.Descriptor.Values
import ShellArgs.Proofs.Descriptor.Inverse
import ShellArgs.Proofs.Descriptor.Located
import ShellArgs.Proofs.Builder.Contents
import ShellArgs.Proofs.Builder.Problems
import ShellArgs.Proofs.Builder.Step
import ShellArgs.Proofs.Builder.Effect
import ShellArgs.Proofs.Builder.Run
import ShellArgs.Proofs.Builder.Scopes
import ShellArgs.Proofs.Builder.Ledger
import ShellArgs.Proofs.Builder.Resolution
import ShellArgs.Proofs.Builder.Reports
import ShellArgs.Proofs.Builder.Abandoned
import ShellArgs.Proofs.Builder.Order
import ShellArgs.Proofs.Builder.Blocks
import ShellArgs.Proofs.Check
import ShellArgs.Proofs.Tree.Shadowing
import ShellArgs.Proofs.Generation
import ShellArgs.Proofs.Directive.Lines
import ShellArgs.Proofs.Directive.Shapes
import ShellArgs.Proofs.Builder.Faithful
import ShellArgs.Proofs.Forms
import ShellArgs.Proofs.Routine.Parsing
import ShellArgs.Proofs.Routine.Arms
import ShellArgs.Proofs.Shell.Reading
import ShellArgs.Proofs.Routine.Spelling
import ShellArgs.Proofs.Completion.Moves
import ShellArgs.Proofs.Completion.Dispatch
import ShellArgs.Proofs.Completion.Settling
import ShellArgs.Proofs.Completion.Given
import ShellArgs.Proofs.Completion.Bundles
import ShellArgs.Proofs.Completion.Agreement
import ShellArgs.Proofs.Directive.Accounting
import ShellArgs.Proofs.Directive.Mistaken
import ShellArgs.Proofs.Tree.Broken
import ShellArgs.Proofs.Completion.Blocks
import ShellArgs.Proofs.Completion.Splitting
import ShellArgs.Proofs.Completion.Later
import ShellArgs.Proofs.Completion.Candidates
import ShellArgs.Proofs.Completion.Typing
import ShellArgs.Proofs.Completion.Degrading
import ShellArgs.Proofs.Completion.Hooks
import ShellArgs.Proofs.Json.Checked
import ShellArgs.Proofs.Json.Distinct
import ShellArgs.Proofs.Settings.Setting
import ShellArgs.Proofs.Settings.Layers
import ShellArgs.Proofs.Files.Kept
import ShellArgs.Proofs.Ending
import ShellArgs.Proofs.Session.Failing
import ShellArgs.Proofs.Session.Output
import ShellArgs.Proofs.Routine.Capture
import ShellArgs.Proofs.Directive.Composition
import ShellArgs.Proofs.Directive.Readers
import ShellArgs.Proofs.Directive.Trace
import ShellArgs.Proofs.Text.Lines
import ShellArgs.Proofs.Text.Physical
import ShellArgs.Proofs.Inlining.Lines
import ShellArgs.Proofs.Inlining.Intact
import ShellArgs.Proofs.Builder.Unlined
import ShellArgs.Proofs.Inlining.Checked
import ShellArgs.Proofs.Descriptor.Flat
import ShellArgs.Proofs.Descriptor.Usable
import ShellArgs.Proofs.Shell.Flat
import ShellArgs.Proofs.Builder.Flat
import ShellArgs.Proofs.Shell.Words
import ShellArgs.Proofs.Routine.Defaults
import ShellArgs.Proofs.Routine.Names
import ShellArgs.Proofs.Routine.Dispatch
import ShellArgs.Proofs.Routine.Diversion
import ShellArgs.Proofs.Routine.Coverage
import ShellArgs.Proofs.Routine.Collected
import ShellArgs.Proofs.Completion.Positionals
import ShellArgs.Proofs.Routine.Document
import ShellArgs.Proofs.Shell.Inert
import ShellArgs.Proofs.Routine.Inert
import ShellArgs.Proofs.Routine.Silent
import ShellArgs.Proofs.Inlining.Interface
import ShellArgs.Proofs.Heading
import ShellArgs.Proofs.Tree.Located
import ShellArgs.Proofs.Builder.Located
import ShellArgs.Proofs.Located
import ShellArgs.Proofs.Tree.Loops
import ShellArgs.Proofs.Completion.Rejoining
import ShellArgs.Proofs.Json.Escaping
import ShellArgs.Proofs.Json.Halves
import ShellArgs.Proofs.Json.Numbers
import ShellArgs.Proofs.Json.RoundTrip
import ShellArgs.Proofs.Settings.Stored
import ShellArgs.Proofs.Files.Replaced
import ShellArgs.Proofs.Session.Storing
import ShellArgs.Proofs.Json.Leaves
import ShellArgs.Proofs.Shell.Assigned
import ShellArgs.Proofs.Routine.Bindings
import ShellArgs.Proofs.Decimal.Rounding
import ShellArgs.Proofs.Decimal.Spelling
import ShellArgs.Proofs.Settings.Denoted
