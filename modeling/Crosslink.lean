import Crosslink.Description.Cache
import Crosslink.Description.Document
import Crosslink.Description.ReferenceIndex
import Crosslink.Files.Workspace
import Crosslink.Preparation
import Crosslink.Proofs.Description.Exactness
import Crosslink.Proofs.Description.Interchange
import Crosslink.Proofs.Description.Scopes
import Crosslink.Proofs.Files.Walking
import Crosslink.Proofs.Linking.Converging
import Crosslink.Proofs.Linking.Lasting
import Crosslink.Proofs.Linking.Pasting
import Crosslink.Proofs.Linking.Rebinding
import Crosslink.Proofs.Linking.Reloading
import Crosslink.Proofs.Linking.Repeating
import Crosslink.Proofs.Linking.Terminating
import Crosslink.Proofs.ResourceSet.Refusing
import Crosslink.Proofs.ResourceSet.Withdrawing
import Crosslink.Proofs.Tree.RoundTrip
import Crosslink.Proofs.Tree.Spellings
import Crosslink.Proofs.Tree.Undoing
import Crosslink.Proofs.Tree.Walks
import Crosslink.Proofs.Types.Patterns
import Crosslink.Proofs.Types.Recovery
import Crosslink.Proofs.Types.SyntaxTrees
import Crosslink.Proofs.Uri.Texts
import Crosslink.Proofs.QualifiedName
import Crosslink.Proofs.Registry
import Crosslink.Proofs.ResourceSet.Languages
import Crosslink.Proofs.ResourceSet.Preparing
import Crosslink.Proofs.Text.Positions
