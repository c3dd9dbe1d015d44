import Formula.Symbol.ByteMap
import Formula.Number.ReadBack
import Formula.Symbol.Buckets
import Formula.Lexeme.Reader
import Formula.Expr.Postfix
import Formula.Parse
import Formula.Proofs.Grammar
import Formula.Proofs.Scan.Moves
import Formula.Proofs.Nesting
import Formula.Proofs.Scan.Reduction
import Formula.Proofs.Scan.Completeness
import Formula.Proofs.Scan.Soundness
import Formula.Proofs.Outcome
import Formula.Proofs.Scan.Refusals
import Formula.Proofs.Parse.Markup
import Formula.Proofs.Parse.Size
import Formula.Proofs.Parse.Limits
import Formula.Proofs.Parse.Language
import Formula.Proofs.Lexeme.Separation
import Formula.Proofs.Number.Magnitude
import Formula.Proofs.Infix.Legible
import Formula.Proofs.Infix.Written
import Formula.Proofs.Infix.RoundTrip
import Formula.Proofs.Parse.Bounds
import Formula.Proofs.Infix.Accepted
import Formula.Proofs.Infix.Evaluation
import Formula.Proofs.Scan.Supply
import Formula.Proofs.Parse.Refusals
import Formula.Proofs.Parse.Defects
import Formula.Proofs.Parse.Unlimited
import Formula.Proofs.Parse.Paths
import Formula.Proofs.Parse.Flatten
import Formula.Proofs.Symbol.Longest
import Formula.Proofs.Symbol.Tables
import Formula.Proofs.Lexeme.Cuts
import Formula.Proofs.Lexeme.Coverage
import Formula.Proofs.Lexeme.Gaps
import Formula.Proofs.Scan.Exchange
import Formula.Proofs.Parse.Calls
import Formula.Proofs.Trace
import Formula.Proofs.Parse.WellFormed
import Formula.Proofs.Parse.PlainText
import Formula.Proofs.Pairing.Tokens
import Formula.Proofs.Pairing.Scans
import Formula.Proofs.Parse.Constants
import Formula.Proofs.Parse.Spellings
import Formula.Proofs.Scan.Balance
import Formula.Proofs.Infix.Layout
import Formula.Proofs.Infix.Parentheses
import Formula.Proofs.Parse.Structure
import Formula.Proofs.Postfix.Run
import Formula.Proofs.Postfix.Decoding
import Formula.Proofs.Postfix.Reduction
import Formula.Proofs.Lexeme.Numbers
import Formula.Proofs.Scan.Counts
import Formula.Proofs.Parse.Names
