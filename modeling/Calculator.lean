import Calculator.Main
import Calculator.Proofs.Derivation
import Calculator.Proofs.LongestExpression
import Calculator.Proofs.ViablePrefix
import Calculator.Proofs.OpenGroups
import Calculator.Proofs.NearestNumber
import Calculator.Proofs.ScaledNumber
import Calculator.Proofs.Midpoints
import Calculator.Proofs.DecimalRounding
import Calculator.Proofs.Rereading
import Calculator.Proofs.FormattedRoundTrip
import Calculator.Proofs.Neighbours
import Calculator.Proofs.Nesting
import Calculator.Proofs.ShortestText
import Calculator.Proofs.PrintedExpression
import Calculator.Proofs.Lexemes
import Calculator.Proofs.RawResult
import Calculator.Proofs.Evaluation
import Calculator.Proofs.FaultStages
import Calculator.Proofs.CrowdedGroups
import Calculator.Proofs.WholeNumbers
import Calculator.Proofs.ExactArithmetic
import Calculator.Proofs.Batch
import Calculator.Proofs.JoinedTexts
import Calculator.Proofs.DecimalForm
import Calculator.Proofs.ShownOrder
import Calculator.Proofs.SeventeenDigits
import Calculator.Proofs.JsonNumbers
import Calculator.Proofs.ResultLine
import Calculator.Proofs.RoundedTwice
import Calculator.Proofs.CanonicalText
import Calculator.Proofs.FirstViolation
import Calculator.Proofs.SignBit
import Calculator.Proofs.NodeByNode
import Calculator.Proofs.CorrectRounding
import Calculator.Proofs.ZeroDivisors
import Calculator.Proofs.QuotientRange
import Calculator.Proofs.TextLines
import Calculator.Proofs.TokenListing
import Calculator.Proofs.StandardInput
import Calculator.Proofs.NumeralValue
import Calculator.Proofs.OutOfBounds
