import MergeMiningMonitor.CoreSuffix.Retire
import MergeMiningMonitor.CoreSuffix.Suspended
import MergeMiningMonitor.Historical.Abort
import MergeMiningMonitor.Backbone.Cursor
import MergeMiningMonitor.Backbone.Prefix
import MergeMiningMonitor.HeaderCache.Refresh
import MergeMiningMonitor.HeaderCache.Verdicts
import MergeMiningMonitor.AuxPow.Binding
import MergeMiningMonitor.AuxPow.Honest
import MergeMiningMonitor.AuxPow.ChildBody
import MergeMiningMonitor.Store.Evidence
import MergeMiningMonitor.Store.Displacement
import MergeMiningMonitor.SourceHealth.Interleaving
import MergeMiningMonitor.Hathor.Ratchet
import MergeMiningMonitor.Pools.FixedPoint
import MergeMiningMonitor.Navigator.Paging
import MergeMiningMonitor.Tree.Navigation
import MergeMiningMonitor.Tree.HiddenCounts
import MergeMiningMonitor.Tree.Branches
import MergeMiningMonitor.Tree.OrphanPlacement
import MergeMiningMonitor.Relationship.Signals
import MergeMiningMonitor.AuxPow.Framing
import MergeMiningMonitor.HeaderCache.RecheckPages
import MergeMiningMonitor.Relationship.Sweep
import MergeMiningMonitor.Hathor.Reward
import MergeMiningMonitor.ParentClassifier.Policies
import MergeMiningMonitor.ParentClassifier.Consensus
import MergeMiningMonitor.Protocol.Commitments
import MergeMiningMonitor.Polling.Progress
import MergeMiningMonitor.AuxPow.Slots
import MergeMiningMonitor.Historical.PublicationState
