import Mgws.Proofs.Known
import Mgws.Proofs.Cuts
import Mgws.Proofs.Rendering
import Mgws.Proofs.Files
import Mgws.Proofs.Escapes
import Mgws.Proofs.Handshake
import Mgws.Proofs.Ticks
import Mgws.Proofs.Beats
import Mgws.Proofs.Fragments
import Mgws.Proofs.Framing
import Mgws.Proofs.Enumeration
import Mgws.Proofs.Lifetime
import Mgws.Proofs.Lookup
import Mgws.Proofs.Decimal
import Mgws.Proofs.Relay
import Mgws.Proofs.Ownership
import Mgws.Proofs.Atomicity
import Mgws.Proofs.Broadcast
import Mgws.Proofs.Names
import Mgws.Proofs.Rejection
import Mgws.Proofs.Identity
import Mgws.Proofs.Heartbeat
import Mgws.Proofs.Directory
import Mgws.Proofs.Endings
import Mgws.Proofs.ThirdParty
import Mgws.Proofs.Addressing
import Mgws.Proofs.Disorder
import Mgws.Proofs.Buttons
import Mgws.Proofs.Tones
import Mgws.Proofs.Pulse
import Mgws.Proofs.Format
import Mgws.Proofs.Markup
import Mgws.Proofs.Table
