import Mel.Proofs.Lexeme.Grammar
import Mel.Scanner.Session
import Mel.Token.Content
import Mel.Tree.Workbench
import Mel.Proofs.Lexeme.Munch
import Mel.Proofs.Lexeme.First
import Mel.Proofs.Scanner.Step
import Mel.Proofs.Scanner.Session
import Mel.Proofs.Scanner.Place
import Mel.Proofs.Scanner.Resume
import Mel.Proofs.Scanner.Settled
import Mel.Proofs.Scan.Reads
import Mel.Proofs.Scan.Cut
import Mel.Proofs.Scan.Layout
import Mel.Proofs.Quoted.Body
import Mel.Proofs.Scan.Quoted
import Mel.Proofs.Scan.Chunk
import Mel.Proofs.Tree.Tokens
import Mel.Proofs.Tree.Unique
import Mel.Proofs.Tree.Program
import Mel.Proofs.Quoted.Closing
import Mel.Proofs.Numeral.Checked
import Mel.Proofs.Scan.Numeral
import Mel.Proofs.Scan.Kinds
import Mel.Proofs.Tree.Context
import Mel.Proofs.Scanner.Course
