import HardwareDesign.Config.File
import HardwareDesign.Encoding
import HardwareDesign.Json.Reader
import HardwareDesign.Json.Writer
import HardwareDesign.Design.Placing
import HardwareDesign.Design.Generation
import HardwareDesign.Design.Rewriting
import HardwareDesign.Design.Walking
import HardwareDesign.Text.Quoted
import HardwareDesign.Proofs.Children
import HardwareDesign.Proofs.RecordKeys
import HardwareDesign.Proofs.Validity
import HardwareDesign.Proofs.Caching
import HardwareDesign.Proofs.Registering
import HardwareDesign.Proofs.Rebuilding
import HardwareDesign.Proofs.Identity
import HardwareDesign.Proofs.Rooting
import HardwareDesign.Proofs.Reindexing
import HardwareDesign.Proofs.Dangling
import HardwareDesign.Proofs.Overlooking
import HardwareDesign.Proofs.Locating
import HardwareDesign.Proofs.Growing
import HardwareDesign.Proofs.Lasting
import HardwareDesign.Proofs.Storing
import HardwareDesign.Proofs.Bits
import HardwareDesign.Proofs.Surviving
import HardwareDesign.Proofs.Draining
import HardwareDesign.Proofs.Drafting
import HardwareDesign.Proofs.Visiting
import HardwareDesign.Proofs.Removing
import HardwareDesign.Proofs.Vetting
import HardwareDesign.Proofs.Numbering
import HardwareDesign.Proofs.Measuring
import HardwareDesign.Proofs.Splitting
