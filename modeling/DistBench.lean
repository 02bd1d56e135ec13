import DistBench.Lib.Run
import DistBench.Lib.Async
import DistBench.Lib.Dict
import DistBench.Lib.PyValue
import DistBench.Lib.Codecs
import DistBench.Lib.PyRepr
import DistBench.Lib.Framing
import DistBench.Lib.Sorting
import DistBench.Lib.Quorum
import DistBench.Lib.Paths
import DistBench.Lib.Menger
import DistBench.Lib.Ring
import DistBench.Lib.Potential
import DistBench.Lib.Flooding
import DistBench.Lib.Relaying
import DistBench.Lib.Obligations
import DistBench.Lib.Packing
import DistBench.Lib.Datagrams
import DistBench.Lib.Circulation
import DistBench.Lib.Shadows
import DistBench.Lib.RwLock
import DistBench.Deployment
import DistBench.Configuration.RingTopology
import DistBench.Configuration.TcpMappings
import DistBench.Configuration.Offline
import DistBench.Bracha.State
import DistBench.Bracha.Basic
import DistBench.Bracha.BasicProvenance
import DistBench.Bracha.BasicAgreement
import DistBench.Bracha.BasicTotality
import DistBench.Bracha.BasicComplexity
import DistBench.Bracha.Layered
import DistBench.Bracha.Plain
import DistBench.Bracha.Handlers
import DistBench.Bracha.Optimized
import DistBench.Bracha.OptimizedOrigin
import DistBench.Bracha.OptimizedRefinement
import DistBench.Bracha.OptimizedMoves
import DistBench.Bracha.AtMostOnce
import DistBench.Bracha.Completion
import DistBench.Bracha.Echoes
import DistBench.Bracha.Committees
import DistBench.Bracha.OptimizedProgress
import DistBench.Bracha.OptimizedTotality
import DistBench.Dolev.Dolev
import DistBench.Dolev.Segments
import DistBench.Dolev.Integrity
import DistBench.Dolev.Deliveries
import DistBench.Dolev.OwnMessages
import DistBench.Dolev.Standalone
import DistBench.Dolev.Announcements
import DistBench.Dolev.Validity
import DistBench.Dolev.Naive
import DistBench.Dolev.PathTest
import DistBench.Dolev.Flooding
import DistBench.Dolev.Backtrace
import DistBench.Dolev.NaivePaths
import DistBench.Dolev.NaiveTests
import DistBench.Bracha.Stack
import DistBench.Bracha.StackRefinement
import DistBench.Bracha.StackDeliveries
import DistBench.Chain.MessageChain
import DistBench.Election.ChangRoberts
import DistBench.Election.ChangRobertsCorrect
import DistBench.Election.RingElection
import DistBench.Election.RingElectionProgress
import DistBench.Election.RustChangRoberts
import DistBench.Lifecycle.Node
import DistBench.Lifecycle.Barrier
import DistBench.Lifecycle.Progress
import DistBench.Lifecycle.Status
import DistBench.Lifecycle.RustNode
import DistBench.Lifecycle.RustBarrier
import DistBench.Lifecycle.RustStatus
import DistBench.Encoding.Format
import DistBench.Encoding.RoundTrip
import DistBench.Signing.Signing
import DistBench.Signing.Binding
import DistBench.Signing.Handle
import DistBench.Signing.Verify
import DistBench.Signing.RustDigest
import DistBench.Signing.RustBinding
import DistBench.Layering.Deliver
import DistBench.Layering.SimpleBroadcast
import DistBench.Layering.Tree
import DistBench.Layering.Routing
import DistBench.Transport.RustTcp
import DistBench.Transport.RustMultiplexing
import DistBench.Transport.Tcp
import DistBench.Transport.TcpPairing
import DistBench.Transport.TcpProgress
import DistBench.Transport.ConnectionManager
import DistBench.Transport.RustChannel
import DistBench.Transport.RustChannelProgress
import DistBench.Transport.RustChannelConnection
import DistBench.Transport.RustThinManager
import DistBench.Transport.RustOffline
