import Sv32.Config
import Sv32.Memory.Listed
import Sv32.Proofs.Staleness
import Sv32.Proofs.Transparency
import Sv32.Proofs.Alike
import Sv32.Proofs.Marks
import Sv32.Proofs.Coherence
import Sv32.Proofs.LiveRefills
import Sv32.Proofs.ByteMap
import Sv32.Proofs.Footprint
import Sv32.Proofs.Departures
import Sv32.Proofs.Sides
import Sv32.Proofs.SingleHits
import Sv32.Proofs.Calls
import Sv32.Proofs.Accounting
import Sv32.Proofs.Safety
import Sv32.Proofs.Refills
import Sv32.Proofs.Repetition
import Sv32.Proofs.Victims
import Sv32.Proofs.Upgrades
import Sv32.Proofs.Flags
import Sv32.Proofs.Superpages
import Sv32.Proofs.Tallies
import Sv32.Proofs.Reports
import Sv32.Proofs.Cuts
import Sv32.Proofs.AddressSpaces
import Sv32.Proofs.Lexemes
import Sv32.Proofs.Phrases
import Sv32.Proofs.Records
import Sv32.Proofs.ConfigText
