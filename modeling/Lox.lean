import Lox.Proofs.Tree.Reading
import Lox.Main
import Lox.Proofs.Tree.PrefixForm
import Lox.Proofs.Environment.Stack
import Lox.Proofs.Execution.Counting
import Lox.Proofs.Execution.Independence
import Lox.Proofs.Session.Scripts
import Lox.Proofs.Session.Transcript
import Lox.Proofs.Session.Diagnostics
import Lox.Proofs.Grammar.Progress
import Lox.Proofs.Grammar.Ending
import Lox.Proofs.Grammar.Order
import Lox.Proofs.Session.Line
