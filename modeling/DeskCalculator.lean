import DeskCalculator.Arithmetic
import DeskCalculator.Calculator
import DeskCalculator.CommandLine
import DeskCalculator.Decimal
import DeskCalculator.Expr
import DeskCalculator.Json
import DeskCalculator.Main
import DeskCalculator.Proofs.Arithmetic.Doubles
import DeskCalculator.Proofs.Arithmetic.Nearest
import DeskCalculator.Proofs.Arithmetic.Rounding
import DeskCalculator.Proofs.Decimal.Runs
import DeskCalculator.Proofs.Evaluation.Direct
import DeskCalculator.Proofs.Evaluation.Marks
import DeskCalculator.Proofs.Evaluation.Order
import DeskCalculator.Proofs.Evaluation.Reached
import DeskCalculator.Proofs.Evaluation.Replacement
import DeskCalculator.Proofs.Expr.Encoding
import DeskCalculator.Proofs.Reading.Acceptance
import DeskCalculator.Proofs.Reading.Bounds
import DeskCalculator.Proofs.Reading.Depth
import DeskCalculator.Proofs.Reading.Display
import DeskCalculator.Proofs.Reading.Likeness
import DeskCalculator.Proofs.Reading.Refusal
import DeskCalculator.Proofs.Reading.Splits
import DeskCalculator.Proofs.Reading.Step
import DeskCalculator.Proofs.Session.Batches
import DeskCalculator.Proofs.Session.Commands
import DeskCalculator.Proofs.Session.Dialogue
import DeskCalculator.Proofs.Session.Register
import DeskCalculator.Proofs.Text.Letters
import DeskCalculator.Proofs.Text.Words
import DeskCalculator.Proofs.Token.Partition
import DeskCalculator.Proofs.Token.Shapes
import DeskCalculator.Proofs.Token.Tiling
import DeskCalculator.Session
import DeskCalculator.Text
import DeskCalculator.Token
