import PocketCalc.Proofs.Tree.Reading
import PocketCalc.Proofs.Tree.Value
import PocketCalc.Window
import PocketCalc.Proofs.Decimal.Literal
import PocketCalc.Proofs.Token.Spelling
import PocketCalc.Proofs.Expression.Percent
import PocketCalc.Proofs.Decimal.Rounding
import PocketCalc.Proofs.Decimal.Text
import PocketCalc.Proofs.Expression.Evaluation
import PocketCalc.Proofs.Expression.Answer
import PocketCalc.Proofs.Expression.Precedence
import PocketCalc.Proofs.Session.Arithmetic
import PocketCalc.Proofs.Session.Shape
import PocketCalc.Proofs.Expression.Detached
import PocketCalc.Proofs.Token.Symbol
import PocketCalc.Proofs.Tree.Signs
import PocketCalc.Proofs.Session.Operands
import PocketCalc.Proofs.Session.Signs
import PocketCalc.Proofs.Session.Invariant
import PocketCalc.Proofs.Session.Restart
import PocketCalc.Proofs.Session.Answer
import PocketCalc.Proofs.Session.Phase
import PocketCalc.Proofs.Session.Dangling
import PocketCalc.Proofs.Session.Backspace
import PocketCalc.Proofs.Tree.Balance
import PocketCalc.Proofs.Expression.Fault
import PocketCalc.Proofs.Session.Fault
import PocketCalc.Proofs.Session.Chain
import PocketCalc.Proofs.Expression.Parentheses
import PocketCalc.Proofs.Tree.Refusal
import PocketCalc.Proofs.Tree.Sentence
import PocketCalc.Proofs.Window.Commands
import PocketCalc.Proofs.Window.Screen
import PocketCalc.Proofs.Tree.Stack
import PocketCalc.Proofs.Expression.Alike
import PocketCalc.Proofs.Expression.Refusal
import PocketCalc.Proofs.Token.Munch
import PocketCalc.Proofs.Decimal.Form
import PocketCalc.Proofs.Expression.Settled
import PocketCalc.Proofs.Tree.Pending
