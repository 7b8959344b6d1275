import RegMachine.Text.Blank
import RegMachine.Text.Lines
import RegMachine.Text.Numeral
import RegMachine.Text.Replace
import RegMachine.Table
import RegMachine.ValueType
import RegMachine.Lang.Expr
import RegMachine.Lang.Stmt
import RegMachine.Isa.Opcode
import RegMachine.Isa.Mnemonic
import RegMachine.Asm.Error
import RegMachine.Asm.LabelTable
import RegMachine.Asm.SourceLine
import RegMachine.Asm.Layout
import RegMachine.Asm.Operand
import RegMachine.Asm.ObjectCode
import RegMachine.Asm.Assemble
import RegMachine.Code.Instr
import RegMachine.Code.Fragment
import RegMachine.Template
import RegMachine.Config
import RegMachine.Compile.Error
import RegMachine.Symbols
import RegMachine.Scope
import RegMachine.Text.Bytes
import RegMachine.Compile.Env
import RegMachine.Compile.Load
import RegMachine.Compile.Store
import RegMachine.Compile.Monad
import RegMachine.Compile.Declare
import RegMachine.Compile.Call
import RegMachine.Compile.Embed
import RegMachine.Compile.Stmt
import RegMachine.Program
import RegMachine.Build
import RegMachine.Proofs.Outcome
import RegMachine.Proofs.Edits
import RegMachine.Proofs.Events
import RegMachine.Proofs.Cells
import RegMachine.Proofs.TwoPass
import RegMachine.Proofs.Text.Lines
import RegMachine.Proofs.Text.Numeral
import RegMachine.Proofs.ReadBack
import RegMachine.Proofs.Embedding
import RegMachine.Proofs.Vocabulary
import RegMachine.Proofs.Labels
import RegMachine.Proofs.Streams
import RegMachine.Proofs.Carrier
import RegMachine.Proofs.Runtime
import RegMachine.Proofs.Acceptance
import RegMachine.Proofs.Closure
import RegMachine.Proofs.Spliced
import RegMachine.Proofs.Returns
import RegMachine.Proofs.Exports
import RegMachine.Proofs.Unread
import RegMachine.Proofs.Lockstep
import RegMachine.Proofs.Blindness
import RegMachine.Proofs.Comments
import RegMachine.Proofs.Nesting
import RegMachine.Proofs.Lists
import RegMachine.Proofs.Headers
import RegMachine.Proofs.Evaluation
import RegMachine.Proofs.Forward
import RegMachine.Proofs.Assignment
import RegMachine.Proofs.Relocation
import RegMachine.Proofs.Placement
import RegMachine.Proofs.Alignment
import RegMachine.Proofs.Typing
import RegMachine.Proofs.Shifts
import RegMachine.Proofs.Iterations
import RegMachine.Proofs.Passing
import RegMachine.Proofs.Splicing
import RegMachine.Proofs.Directives
import RegMachine.Proofs.Reached
import RegMachine.Proofs.Rejection
import RegMachine.Proofs.Elementwise
import RegMachine.Proofs.Boundaries
import RegMachine.Proofs.Grammar
import RegMachine.Proofs.Placeholders
