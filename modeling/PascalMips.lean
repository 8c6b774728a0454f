import PascalMips.CommandLine.Run
import PascalMips.Compile
import PascalMips.Main
import PascalMips.Proofs.Machine.TagRuns
import PascalMips.Proofs.Parser.Rendering
import PascalMips.Proofs.Program.Calls
import PascalMips.Proofs.Program.Descent
import PascalMips.Proofs.Program.Elements
import PascalMips.Proofs.Program.Fold
import PascalMips.Proofs.Program.FoldedMarks
import PascalMips.Proofs.Program.Language
import PascalMips.Proofs.Program.Limits
import PascalMips.Proofs.Program.Lookahead
import PascalMips.Proofs.Program.Mirror
import PascalMips.Proofs.Program.NormalForm
import PascalMips.Proofs.Program.Outlines
import PascalMips.Proofs.Program.Results
import PascalMips.Proofs.Program.Sessions
import PascalMips.Proofs.Program.Spelling
import PascalMips.Proofs.Program.Tags
import PascalMips.Proofs.Statement.Balance
import PascalMips.Proofs.Statement.Comparisons
import PascalMips.Proofs.Statement.Lowering
import PascalMips.Proofs.Symbol.Holdings
import PascalMips.Proofs.Token.Faults
import PascalMips.Proofs.Token.Respacing
