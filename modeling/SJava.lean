import SJava.MemoryFiles
import SJava.Outline
import SJava.FileTree
import SJava.Main
import SJava.Proofs.Form
import SJava.Proofs.Run
import SJava.Proofs.Acceptance
import SJava.Proofs.Values
import SJava.Proofs.FirstValues
import SJava.Proofs.Meaning
import SJava.Proofs.Balance
import SJava.Proofs.Blocks
import SJava.Proofs.Locals
import SJava.Proofs.Nesting
import SJava.Proofs.Roles
import SJava.Proofs.Faults
import SJava.Proofs.Redeclaration
import SJava.Proofs.Registration
import SJava.Proofs.Finals
import SJava.Proofs.Globals
import SJava.Proofs.Relabelling
import SJava.Proofs.Renaming
import SJava.Proofs.Names
import SJava.Proofs.Shifting
import SJava.Proofs.Swapping
import SJava.Proofs.MethodOrder
import SJava.Proofs.Spacing
import SJava.Proofs.Reading
import SJava.Proofs.JsonText
import SJava.Proofs.Listings
import SJava.Proofs.Commands
import SJava.Proofs.Renumbering
import SJava.Proofs.Comments
import SJava.Proofs.Initializations
import SJava.Proofs.Tokenization
import SJava.Proofs.ScopeText
import SJava.Proofs.Brackets
import SJava.Proofs.Cutting
import SJava.Proofs.Places
import SJava.Proofs.TestReports
import SJava.Proofs.Columns
