import StraightLine.Ast.Basic
import StraightLine.Ast.Json
import StraightLine.Command.Build
import StraightLine.Command.Directory
import StraightLine.Command.FileName
import StraightLine.Command.Invocation
import StraightLine.Command.Outcome
import StraightLine.Command.Plan
import StraightLine.Decimal.Fixed
import StraightLine.Decimal.Interval
import StraightLine.Decimal.Layout
import StraightLine.Decimal.Scale
import StraightLine.Decimal.Shortest
import StraightLine.Diagnostic
import StraightLine.Draft
import StraightLine.Error
import StraightLine.Eval
import StraightLine.Ir.Function
import StraightLine.Ir.Instr
import StraightLine.Ir.Json
import StraightLine.Ir.Module
import StraightLine.Ir.Operand
import StraightLine.Ir.Operator
import StraightLine.Ir.Ty
import StraightLine.Json.Basic
import StraightLine.Json.Parser
import StraightLine.Json.Printer
import StraightLine.Json.Reader
import StraightLine.Json.Token
import StraightLine.Lower
import StraightLine.Main
import StraightLine.Naming
import StraightLine.Numeral
import StraightLine.Pass
import StraightLine.Pass.CommonExpressions
import StraightLine.Pass.DeadCode
import StraightLine.Pass.Folding
import StraightLine.Pass.OperandOrder
import StraightLine.Pass.Peephole
import StraightLine.Pass.Reachable
import StraightLine.Pass.Scan
import StraightLine.Pass.SlotPromotion
import StraightLine.Pass.Strength
import StraightLine.Pass.Subst
import StraightLine.Pass.UnreadSlots
import StraightLine.Pipeline
import StraightLine.Proofs.Carry
import StraightLine.Proofs.Doubles
import StraightLine.Proofs.Interpreter
import StraightLine.Proofs.LoweredCode
import StraightLine.Proofs.LoweredItems
import StraightLine.Proofs.Lowering
import StraightLine.Proofs.Optimization
import StraightLine.Proofs.Peephole
import StraightLine.Proofs.Progress
import StraightLine.Proofs.Refinement
import StraightLine.Proofs.ScanPasses
import StraightLine.Proofs.Scanning
import StraightLine.Proofs.SessionLifecycle
import StraightLine.Proofs.SessionOptions
import StraightLine.Proofs.SessionSafety
import StraightLine.Proofs.SessionSteps
import StraightLine.Proofs.Store
import StraightLine.Proofs.WellFormed
import StraightLine.Proofs.Workplace
import StraightLine.Session.Basic
import StraightLine.Session.Code
import StraightLine.Session.Handle
import StraightLine.Session.Lifecycle
import StraightLine.Session.Refusal
import StraightLine.Session.Request
import StraightLine.Target
import StraightLine.Text.Blank
import StraightLine.Text.Split
import StraightLine.Verify
import StraightLine.Proofs.TypeSafety
import StraightLine.Proofs.SessionShape
import StraightLine.Proofs.SessionAbandon
import StraightLine.Proofs.SessionTyping
import StraightLine.Proofs.SessionNames
import StraightLine.Proofs.CodeRequests
import StraightLine.Proofs.ItemAcceptance
import StraightLine.Proofs.SessionRefusals
import StraightLine.Proofs.ItemStability
import StraightLine.Proofs.ItemCode
import StraightLine.Proofs.FinishedModules
import StraightLine.Proofs.Completion
import StraightLine.Proofs.Labels
import StraightLine.Proofs.RefusedItems
import StraightLine.Proofs.SessionStages
import StraightLine.Proofs.Handles
import StraightLine.Proofs.Workshop
import StraightLine.Proofs.CallDepth
import StraightLine.Proofs.JsonScan
import StraightLine.Proofs.JsonDocuments
import StraightLine.Proofs.JsonForms
import StraightLine.Proofs.JsonRoundTrip
import StraightLine.Proofs.Wrapping
import StraightLine.Proofs.Positions
import StraightLine.Proofs.SafePasses
import StraightLine.Proofs.SlotFree
import StraightLine.Proofs.Worksheet
import StraightLine.Proofs.Calculations
import StraightLine.Proofs.Poisoning
import StraightLine.Proofs.WrapperNames
import StraightLine.Proofs.NormalForms
import StraightLine.Proofs.LiveCode
import StraightLine.Proofs.ChangeReports
import StraightLine.Proofs.PipelineText
import StraightLine.Proofs.Replacements
import StraightLine.Proofs.RoundedDecimals
import StraightLine.Proofs.FloatText
import StraightLine.Proofs.OperandText
import StraightLine.Proofs.Construction
import StraightLine.Proofs.Rounding
import StraightLine.Proofs.Reciprocals
