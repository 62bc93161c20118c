import Aiobt.BencodeRoundTrip
import Aiobt.BencodeCanonical
import Aiobt.BencodeCompiledAgreement
import Aiobt.LeastByKey
import Aiobt.Tilings
import Aiobt.PieceTrackerCompiled
import Aiobt.SelectionAgreement
import Aiobt.PathContainment
import Aiobt.TorrentIsolation
import Aiobt.SessionTasks
import Aiobt.VerifiedPieces
import Aiobt.CompletionEvents
import Aiobt.AvailabilityCounts
import Aiobt.PendingPieces
import Aiobt.ServedPieces
import Aiobt.EndgameCoverage
import Aiobt.PieceChoice
import Aiobt.BlockTransfer
import Aiobt.HashedGeometry
import Aiobt.CheckSteps
import Aiobt.WorkConservation
import Aiobt.MseAgreement
import Aiobt.IncomingDetection
import Aiobt.PlaintextFallback
import Aiobt.ForcedEncryption
import Aiobt.StreamTransparency
import Aiobt.WireFraming
import Aiobt.TorrentReserialization
import Aiobt.TorrentGeometry
import Aiobt.SavedSnapshots
import Aiobt.StoppedSessions
import Aiobt.SeedingState
import Aiobt.Registration
import Aiobt.EventRegistrations
import Aiobt.OnceListeners
import Aiobt.ListenerFailures
import Aiobt.HostilePeers
import Aiobt.PackedBlocks
import Aiobt.TrackerFailover
import Aiobt.DiscoveredPeers
import Aiobt.UnchokedPeers
import Aiobt.RechokeDecisions
import Aiobt.TorrentRemoval
import Aiobt.PeerRegistry
import Aiobt.TrackerAccounting
import Aiobt.CreatedTorrents
import Aiobt.UsablePeers
import Aiobt.StructFormats
import Aiobt.UdpPackets
import Aiobt.QueryStrings
import Aiobt.HttpAnnounces
import Aiobt.CompiledProtocol
import Aiobt.BitfieldLayout
import Aiobt.UniquePaths
import Aiobt.LastWrites
import Aiobt.PartialTransfers
import Aiobt.PeerAdmission
import Aiobt.Futures
import Aiobt.UdpRequests
import Aiobt.CountMaps
import Aiobt.AvailabilityLedger
import Aiobt.FifoNetworks
import Aiobt.TransferTurns
import Aiobt.Swarms
import Aiobt.SwarmProgress
import Aiobt.NetworkLinks
import Aiobt.SeedSteps
import Aiobt.LeechingPairs
import Aiobt.SeededClients
import Aiobt.Inevitability
import Aiobt.TaskEffort
import Aiobt.SeededDownloads
import Aiobt.PeerConduct
import Aiobt.WireNetworks
import Aiobt.WireSwarms
import Aiobt.DiskCalls
import Aiobt.DiskContents
import Aiobt.DiskSteps
import Aiobt.DiskSessions
import Aiobt.CrashRecovery
import Aiobt.ServedStorages
