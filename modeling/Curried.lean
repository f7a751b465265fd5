import Curried.Main
import Curried.Token.Stream
import Curried.Tree.Inspect
import Curried.Proofs.Invariant
import Curried.Proofs.Lexeme
import Curried.Proofs.Lexing
import Curried.Proofs.Shape
import Curried.Proofs.Reading
import Curried.Proofs.Scope
import Curried.Proofs.Numeral
import Curried.Proofs.Printing
import Curried.Proofs.RoundTrip
import Curried.Proofs.Capture
import Curried.Proofs.Values
import Curried.Proofs.Calculus
import Curried.Proofs.Acceptance
import Curried.Proofs.History
import Curried.Proofs.Faults
import Curried.Proofs.Survival
import Curried.Proofs.Agreement
import Curried.Proofs.Concatenation
import Curried.Proofs.Commutation
import Curried.Proofs.Nesting
import Curried.Proofs.Limit
import Curried.Proofs.Eventual
import Curried.Proofs.Currying
import Curried.Proofs.Definition
import Curried.Proofs.Bracketing
import Curried.Proofs.Literals
import Curried.Proofs.Unreadable
import Curried.Proofs.Termination
import Curried.Proofs.Locality
