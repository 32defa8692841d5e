import Positional.Expression.Machine
import Positional.CommandLine
import Positional.Main
import Positional.Session.Input
import Positional.Proofs.Text.Classes
import Positional.Proofs.Expression.Movement
import Positional.Proofs.Expression.Derivation
import Positional.Proofs.Expression.Reading
import Positional.Proofs.Expression.GrammarValue
import Positional.Proofs.Binary64
import Positional.Proofs.Expression.MixedNumber
import Positional.Proofs.Expression.Context
import Positional.Proofs.Expression.Opening
import Positional.Proofs.Expression.Fractions
import Positional.Proofs.Expression.Wrapped
import Positional.Proofs.Expression.Finite
import Positional.Proofs.Expression.Factorial
import Positional.Proofs.Expression.CallStack
import Positional.Proofs.Expression.CallStackRun
import Positional.Proofs.Expression.Recursion
import Positional.Proofs.Binary64.Exact
import Positional.Proofs.Binary64.Rounding
import Positional.Proofs.Binary64.Rational
import Positional.Proofs.Numeral.Digits
import Positional.Proofs.Numeral.Written
import Positional.Proofs.Numeral.Reading
import Positional.Proofs.Numeral.RoundTrip
import Positional.Proofs.Conversion
import Positional.Proofs.Numeral.Value
import Positional.Proofs.Numeral.Expansion
import Positional.Proofs.Numeral.Decimal
import Positional.Proofs.Numeral.NormalForm
import Positional.Proofs.Conversion.Row
import Positional.Proofs.Conversion.Literals
import Positional.Proofs.Session
import Positional.Proofs.Session.Binary
import Positional.Proofs.Session.Radix
import Positional.Proofs.Session.Input
import Positional.Proofs.Text.Joined
import Positional.Proofs.CommandLine
import Positional.Proofs.Text.LetterCase
import Positional.Proofs.Text.Respelling
import Positional.Proofs.Expression.Draws
import Positional.Proofs.Expression.Composition
import Positional.Proofs.Expression.Respelling
import Positional.Proofs.Expression.Agreement
import Positional.Proofs.Expression.Spacing
import Positional.Proofs.Expression.FactorialMark
import Positional.Proofs.Conversion.LetterCase
import Positional.Proofs.Expression.Chance
import Positional.Proofs.Table
import Positional.Proofs.Session.Unreadable
import Positional.Proofs.Numeral.Format
import Positional.Proofs.Expression.Places
import Positional.Proofs.Expression.Horizon
import Positional.Proofs.Numeral.Order
import Positional.Proofs.Numeral.Precision
import Positional.Proofs.Conversion.Origin
import Positional.Proofs.Conversion.Label
import Positional.Proofs.Expression.Progress
import Positional.Proofs.Expression.Adjacent
import Positional.Proofs.Expression.Nesting
