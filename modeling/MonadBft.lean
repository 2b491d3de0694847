import MonadBft.Reports
import MonadBft.Chain
import MonadBft.Freshness
import MonadBft.TimeoutCertificates
import MonadBft.Timer
import MonadBft.Collecting
import MonadBft.NoEndorsements
import MonadBft.Epochs
import MonadBft.Addressing
import MonadBft.BlockTree.Arrival
import MonadBft.Statesync.Reassembly
import MonadBft.Statesync.Ordering
import MonadBft.Restarting
import MonadBft.Wire.Messages
import MonadBft.BlockSync.PeerRequests
import MonadBft.Statesync.Streaming
import MonadBft.Archive.Progress
import MonadBft.Archive.CircuitBreaker
import MonadBft.Archive.RlpOffsets
import MonadBft.Rpc.ChainStateBuffer
import MonadBft.Ledger.Cache
import MonadBft.RaptorCast.Scheduling
import MonadBft.RaptorCast.Inviting
import MonadBft.RaptorCast.Limits
import MonadBft.PeerDiscovery.Routing
import MonadBft.BlockTree.HighCommit
import MonadBft.Eth.Panics
import MonadBft.Bls
import MonadBft.RaptorCast.Delivery
import MonadBft.Agreement
