import StackLang.Text.Basic
import StackLang.Text.Numeral
import StackLang.Text.Quoted
import StackLang.Text.Style
import StackLang.Decimal
import StackLang.Value
import StackLang.Tree
import StackLang.Names
import StackLang.Typing
import StackLang.Instruction.Basic
import StackLang.Instruction.Written
import StackLang.Program.Basic
import StackLang.Program.StackDepth
import StackLang.Lowering
import StackLang.Machine.Basic
import StackLang.Machine.Step
import StackLang.Files
import StackLang.Sandbox
import StackLang.CommandLine.Arguments
import StackLang.CommandLine.Session
import StackLang.Main
import StackLang.Proofs.FloatBits
import StackLang.Proofs.NearestFloat
import StackLang.Proofs.FloatText
import StackLang.Proofs.WrittenWords
import StackLang.Proofs.TextRoundTrip
import StackLang.Proofs.Effect
import StackLang.Proofs.Runs
import StackLang.Proofs.DepthTable
import StackLang.Proofs.Resolution
import StackLang.Proofs.ControlFlow
import StackLang.Proofs.VerifiedRun
import StackLang.Proofs.TreeShape
import StackLang.Proofs.LoweredCode
import StackLang.Proofs.GeneratedLabels
import StackLang.Proofs.Segment
import StackLang.Proofs.StackProfile
import StackLang.Proofs.GeneratedDepth
import StackLang.Proofs.DeclaredNames
import StackLang.Proofs.Annotation
import StackLang.Proofs.PlainCode
import StackLang.Proofs.TypeRules
import StackLang.Proofs.Acceptance
import StackLang.Proofs.Course
import StackLang.Proofs.TypedEvaluation
import StackLang.Proofs.ExpressionRun
import StackLang.Proofs.EffectRun
import StackLang.Proofs.StatementRun
import StackLang.Proofs.CompiledRun
import StackLang.Proofs.Suppression
import StackLang.Proofs.BareForm
import StackLang.Proofs.LogicalPolicies
import StackLang.Proofs.ValueBeforeUse
import StackLang.Proofs.LabelAgreement
import StackLang.Proofs.Renaming
import StackLang.Proofs.SiteCode
import StackLang.Proofs.AssignmentChain
import StackLang.Proofs.Conversions
import StackLang.Proofs.ForwardJumps
import StackLang.Proofs.InPlace
import StackLang.Proofs.FailedStep
import StackLang.Proofs.StringLiteral
import StackLang.Proofs.Literals
import StackLang.Proofs.NameFaults
import StackLang.Proofs.Requests
import StackLang.Proofs.FaultSites
import StackLang.Proofs.FileHistory
import StackLang.Proofs.PrintedLines
import StackLang.Proofs.Arity
import StackLang.Proofs.LineByLine
import StackLang.Proofs.JumpDirections
import StackLang.Proofs.Worklist
import StackLang.Proofs.NameIndex
import StackLang.Proofs.Identities
import StackLang.Proofs.IntegerInstructions
