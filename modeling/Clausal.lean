import Clausal.Config.Text
import Clausal.Exchange.Reader
import Clausal.Exchange.Writer
import Clausal.Formula.Shape
import Clausal.Normal.Conversion
import Clausal.Proofs.ConfigText
import Clausal.Proofs.Dependencies
import Clausal.Proofs.Exchange
import Clausal.Proofs.Extraction
import Clausal.Proofs.Fixed
import Clausal.Proofs.FreshNames
import Clausal.Proofs.Identity
import Clausal.Proofs.Independence
import Clausal.Proofs.Lookup
import Clausal.Proofs.Products
import Clausal.Proofs.Provenance
import Clausal.Proofs.Recursion
import Clausal.Proofs.Relaxed
import Clausal.Proofs.Rendering
import Clausal.Proofs.Skolem.Copies
import Clausal.Proofs.Stable
import Clausal.Proofs.Substitution
import Clausal.Proofs.Tautology
import Clausal.Proofs.Words
import Clausal.Registry.Define
import Clausal.Semantics
