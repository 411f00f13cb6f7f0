import OwlCore.Anonymous.Work
import OwlCore.Document.Repeated
import OwlCore.Index.Encoded
import OwlCore.Index.Components
import OwlCore.Index.Declarations
import OwlCore.Index.Cache
import OwlCore.Closure.Apart
import OwlCore.Closure.Reachable
import OwlCore.Turtle.Numbers
import OwlCore.Turtle.Graph
import OwlCore.Wire.Agreement
import OwlCore.Wire.Collection
import OwlCore.Wire.Verification
import OwlCore.Wire.Mapped
import OwlCore.Format.NaryOperands
import OwlCore.Format.OwlXmlRoundTrip
import OwlCore.Validation.Analysis
import OwlCore.Native.Hash
import OwlCore.Native.Retained
