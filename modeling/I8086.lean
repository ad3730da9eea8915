import I8086.CommandLine.Session
import I8086.Main
import I8086.Proofs.Attempt
import I8086.Proofs.Unambiguous
import I8086.Proofs.OpcodeMap
import I8086.Proofs.Limit
import I8086.Proofs.Packing
import I8086.Proofs.Prefixes
import I8086.Proofs.Stream
import I8086.Proofs.Shapes
import I8086.Proofs.Effects
import I8086.Proofs.Termination
import I8086.Proofs.NoFault
import I8086.Proofs.Lockstep
import I8086.Proofs.Coverage
import I8086.Proofs.Widths
import I8086.Proofs.Slots
import I8086.Proofs.Lanes
import I8086.Proofs.LastWrites
import I8086.Proofs.Sums
import I8086.Proofs.Orders
import I8086.Proofs.Spelling
import I8086.Proofs.Synonyms
import I8086.Proofs.Numerals
import I8086.Proofs.Wording
import I8086.Proofs.Legible
import I8086.Proofs.Arithmetic
import I8086.Proofs.Sessions
import I8086.Proofs.Groups
import I8086.Proofs.Unlabeled
import I8086.Proofs.Contiguous
import I8086.Proofs.Annotations
import I8086.Proofs.Targets
import I8086.Proofs.Locality
import I8086.Proofs.Splitting
import I8086.Proofs.Resuming
import I8086.Proofs.Traces
import I8086.Proofs.Distances
import I8086.Proofs.Straight
import I8086.Proofs.Loops
import I8086.Proofs.Passing
import I8086.Proofs.Failures
import I8086.Proofs.Frames
import I8086.Proofs.Resolution
import I8086.Proofs.BitStream
import I8086.Proofs.Loading
import I8086.Proofs.Unpacking
import I8086.Proofs.SegmentEnds
