import PolishCalc.CommandLine.Program
import PolishCalc.Expression.Tree
import PolishCalc.Main
import PolishCalc.Session.Action
import PolishCalc.Proofs.Balance
import PolishCalc.Proofs.Grammar
import PolishCalc.Proofs.Meaning
import PolishCalc.Proofs.Invariant
import PolishCalc.Proofs.Failure
import PolishCalc.Proofs.Number.Nearest
import PolishCalc.Proofs.Number.Finite
import PolishCalc.Proofs.Application
import PolishCalc.Proofs.Safety
import PolishCalc.Proofs.Number.ReadBack
import PolishCalc.Proofs.Number.Written
import PolishCalc.Proofs.Numeral
import PolishCalc.Proofs.Reset
import PolishCalc.Proofs.Acceptance
import PolishCalc.Proofs.Characters
import PolishCalc.Proofs.Endings
import PolishCalc.Proofs.RunningAnswer
import PolishCalc.Proofs.Depth
import PolishCalc.Proofs.Reading
import PolishCalc.Proofs.Browsing
import PolishCalc.Proofs.Lockstep
import PolishCalc.Proofs.Conversation
import PolishCalc.Proofs.Sources
import PolishCalc.Proofs.Trace
import PolishCalc.Proofs.Resubmission
import PolishCalc.Proofs.Drift
import PolishCalc.Proofs.Masking
import PolishCalc.Proofs.Display
import PolishCalc.Proofs.Parentheses
import PolishCalc.Proofs.Surroundings
import PolishCalc.Proofs.Groups
import PolishCalc.Proofs.Literals
import PolishCalc.Proofs.Number.ZeroSign
import PolishCalc.Proofs.Replay
import PolishCalc.Proofs.Closing
import PolishCalc.Proofs.Number.Whole
import PolishCalc.Proofs.RandomRange
import PolishCalc.Proofs.Division
import PolishCalc.Proofs.Forgetting
import PolishCalc.Proofs.Prompts
import PolishCalc.Proofs.Descent.Agreement
