import Unmask.Expansion.Session
import Unmask.Host.FileTree
import Unmask.Main
import Unmask.Proofs.Cycles
import Unmask.Proofs.DelayedExpansion
import Unmask.Proofs.Faults
import Unmask.Proofs.Finality
import Unmask.Proofs.FixedPoints
import Unmask.Proofs.Growth
import Unmask.Proofs.HistoryIndependence
import Unmask.Proofs.InfRoundTrip
import Unmask.Proofs.Layout
import Unmask.Proofs.LineEndings
import Unmask.Proofs.Lockstep
import Unmask.Proofs.LoopBodies
import Unmask.Proofs.Lossless
import Unmask.Proofs.NameCase
import Unmask.Proofs.NamesInProgress
import Unmask.Proofs.OffsetNumerals
import Unmask.Proofs.Reachability
import Unmask.Proofs.Recollection
import Unmask.Proofs.RoundTrip
import Unmask.Proofs.Splitting
import Unmask.Proofs.UncutValues
import Unmask.Proofs.WrittenReferences
import Unmask.Proofs.Encodings
import Unmask.Proofs.Items
import Unmask.Proofs.LongLines
import Unmask.Proofs.Transcripts
import Unmask.Proofs.StringKeys
import Unmask.Proofs.Switches
import Unmask.Proofs.Takings
import Unmask.Proofs.Inputs
import Unmask.Proofs.Logs
import Unmask.Proofs.LoopItems
