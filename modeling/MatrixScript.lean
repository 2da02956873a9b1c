import MatrixScript.Token.Scan
import MatrixScript.Parser.Statement
import MatrixScript.Operator.Apply
import MatrixScript.Operator.Sized
import MatrixScript.Scope
import MatrixScript.Machine.Exec
import MatrixScript.Typing.Stmt
import MatrixScript.Main
import MatrixScript.Proofs.RunLemmas
import MatrixScript.Proofs.ScopeLemmas
import MatrixScript.Proofs.TreeLines
import MatrixScript.Proofs.InPlace
import MatrixScript.Proofs.Stepwise
import MatrixScript.Proofs.Unwinding
import MatrixScript.Proofs.Growth
import MatrixScript.Proofs.Agreement
import MatrixScript.Proofs.Leaves
import MatrixScript.Proofs.TypingRules
import MatrixScript.Proofs.Evaluation
import MatrixScript.Proofs.Discipline
import MatrixScript.Proofs.Simulation
import MatrixScript.Proofs.BaseTypes
import MatrixScript.Proofs.Moments
import MatrixScript.Proofs.Gate
import MatrixScript.Proofs.GlobalNames
import MatrixScript.Proofs.Truncation
import MatrixScript.Proofs.Grammar
import MatrixScript.Proofs.GrammarLemmas
import MatrixScript.Proofs.ReadingLemmas
import MatrixScript.Proofs.ExpressionReading
import MatrixScript.Proofs.StatementReading
import MatrixScript.Proofs.Failures
import MatrixScript.Proofs.ViablePrefixes
import MatrixScript.Proofs.IncompleteInput
import MatrixScript.Proofs.LexicalRules
import MatrixScript.Proofs.LexicalLemmas
import MatrixScript.Proofs.LongestMatch
import MatrixScript.Proofs.Diagnostics
import MatrixScript.Proofs.Matrices
import MatrixScript.Proofs.Shapes
import MatrixScript.Proofs.Axes
import MatrixScript.Proofs.Alignment
import MatrixScript.Proofs.AlignedRuns
import MatrixScript.Proofs.Rendering
import MatrixScript.Proofs.WordBoundaries
import MatrixScript.Proofs.SpacedWords
import MatrixScript.Proofs.PrintedArrays
import MatrixScript.Proofs.Fuel
import MatrixScript.Proofs.Pieces
import MatrixScript.Proofs.Erasure
import MatrixScript.Proofs.ErasedTyping
import MatrixScript.Proofs.Layout
import MatrixScript.Proofs.Places
import MatrixScript.Proofs.Entries
import MatrixScript.Proofs.Transposition
import MatrixScript.Proofs.ProductForms
import MatrixScript.Proofs.IntegerProducts
import MatrixScript.Proofs.TransposedProducts
import MatrixScript.Proofs.Assignment
import MatrixScript.Proofs.CleanedText
import MatrixScript.Proofs.Steps
import MatrixScript.Proofs.Termination
import MatrixScript.Proofs.Pointwise
import MatrixScript.Proofs.Subscripts
import MatrixScript.Proofs.CompoundAssignment
import MatrixScript.Proofs.LineNumbers
import MatrixScript.Proofs.MisplacedTokens
import MatrixScript.Proofs.BraceBlocks
import MatrixScript.Proofs.Findings
import MatrixScript.Proofs.NamedLines
import MatrixScript.Proofs.OperatorFaults
