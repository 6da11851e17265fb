import Heptagon.Edit
import Heptagon.Highlight
import Heptagon.Loading
import Heptagon.Proofs.Document.Acceptance
import Heptagon.Proofs.Document.Blanking
import Heptagon.Proofs.Document.Calls
import Heptagon.Proofs.Document.CommentPlaces
import Heptagon.Proofs.Document.Composition
import Heptagon.Proofs.Document.Derivation
import Heptagon.Proofs.Document.Inserting
import Heptagon.Proofs.Document.Operators
import Heptagon.Proofs.Document.Printing
import Heptagon.Proofs.Document.Respacing
import Heptagon.Row
import Heptagon.Proofs.Division.Carrying
import Heptagon.Proofs.Document.Respelling
import Heptagon.Proofs.Document.Highlighting
import Heptagon.Proofs.Build.Versions
import Heptagon.Proofs.Document.Geometry
import Heptagon.Proofs.Document.EquationLists
import Heptagon.Proofs.Document.Prefixes
import Heptagon.Proofs.Document.Parenthesizing
import Heptagon.Proofs.Document.Keywords
import Heptagon.Proofs.Document.Words
import Heptagon.Proofs.Document.Names
import Heptagon.Proofs.Document.Dotting
import Heptagon.Proofs.Document.NameCaptures
import Heptagon.Proofs.Build.Checks
