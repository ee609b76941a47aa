import Descent.Excerpt
import Descent.Grammar.Action
import Descent.Grammar.Ascii
import Descent.Session
import Descent.Proofs.Combinator
import Descent.Proofs.Loop
import Descent.Proofs.Modifier
import Descent.Proofs.Terminal
import Descent.Proofs.Containment
import Descent.Proofs.Correspondence
import Descent.Proofs.Congruence
import Descent.Proofs.Unfolding
import Descent.Proofs.Representation
import Descent.Proofs.Derivation
import Descent.Proofs.LeftRecursion
import Descent.Proofs.Termination
import Descent.Proofs.Losslessness
import Descent.Proofs.Parametricity
import Descent.Proofs.Shift
import Descent.Proofs.Recognition
import Descent.Proofs.Bisimulation
import Descent.Proofs.Fixpoint
import Descent.Proofs.KindIndependence
import Descent.Proofs.BuildOnce
import Descent.Proofs.WeakHandles
import Descent.Proofs.Replay
import Descent.Proofs.WholeInput
import Descent.Proofs.Greed
import Descent.Proofs.LoopRecursion
import Descent.Proofs.PureParser
import Descent.Proofs.Splitting
import Descent.Proofs.SeparatedList
import Descent.Proofs.Choice
import Descent.Proofs.Excerpt
import Descent.Proofs.Leaves
import Descent.Proofs.Spelling
import Descent.Proofs.Keywords
import Descent.Proofs.NestedLists
import Descent.Proofs.Standalone
import Descent.Proofs.LongestMatch
import Descent.Proofs.DecimalText
import Descent.Proofs.Integers
import Descent.Proofs.NumberText
import Descent.Proofs.Sequencing
import Descent.Proofs.Slices
import Descent.Proofs.Lines
import Descent.Proofs.ScanUntil
import Descent.Proofs.MachineWord
