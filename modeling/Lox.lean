import Lox.Command.Directory
import Lox.Main
import Lox.Proofs.Binding.Balance
import Lox.Proofs.Lexical.Search
import Lox.Proofs.Limits.CallDepth
import Lox.Proofs.Lines.Sessions
import Lox.Proofs.Loops.For
import Lox.Proofs.Number.Integers
import Lox.Proofs.Objects.Construction
import Lox.Proofs.Renaming.Programs
import Lox.Proofs.Session.Evaluation
import Lox.Proofs.Session.Globals
import Lox.Proofs.Store.Forest
import Lox.Proofs.Syntax.Dumping
import Lox.Proofs.Syntax.Positions
import Lox.Proofs.Syntax.Printing
import Lox.Proofs.Syntax.Sequence
