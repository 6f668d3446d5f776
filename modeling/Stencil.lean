import Stencil.Main
import Stencil.Proofs.Comparison
import Stencil.Proofs.LosslessLexing
import Stencil.Proofs.RoundTrip
import Stencil.Proofs.SignatureAgreement
import Stencil.Proofs.Unresolved
import Stencil.Proofs.DepthLimit
import Stencil.Proofs.ScanSteps
import Stencil.Proofs.EscapedPlaceholders
import Stencil.Proofs.QuotedText
import Stencil.Proofs.CompactText
import Stencil.Proofs.Walking
import Stencil.Proofs.Fingerprints
import Stencil.Proofs.Reloading
import Stencil.Proofs.PropLookups
import Stencil.Proofs.RepeatedInclusions
import Stencil.Proofs.Registering
import Stencil.Proofs.ClosedBoundary
import Stencil.Proofs.RegistryContents
import Stencil.Proofs.DeclaredProps
import Stencil.Proofs.ForwardedAttributes
import Stencil.Proofs.OrderedAttributes
import Stencil.Proofs.WildcardChains
import Stencil.Proofs.ByteOrder
import Stencil.Proofs.UnorderedTables
import Stencil.Proofs.RegistrationOrder
import Stencil.Proofs.ScanLoops
import Stencil.Proofs.Placeholders
import Stencil.Proofs.FirstViolation
import Stencil.Proofs.ReloadReports
import Stencil.Proofs.ArgumentEvaluation
import Stencil.Proofs.CanonicalText
import Stencil.Proofs.OpenTags
import Stencil.Proofs.ShorthandPlaces
import Stencil.Proofs.ByteSlices
import Stencil.Proofs.ByteScans
import Stencil.Proofs.ByteScanners
import Stencil.Proofs.ByteTagScanner
import Stencil.Proofs.ByteLexing
import Stencil.Proofs.SoundPositions
import Stencil.Proofs.MessageLines
import Stencil.Proofs.ViolationPaths
import Stencil.Proofs.ReadBackForms
import Stencil.Proofs.FileNames
import Stencil.Proofs.SharedLexer
import Stencil.Proofs.TreeFiles
import Stencil.Proofs.LoadedDirectory
import Stencil.Proofs.ScanRounds
import Stencil.Proofs.LexRounds
