import SizedCache.Table.Update
import SizedCache.Table.Traversal
import SizedCache.Recency
import SizedCache.Timed
import SizedCache.Stats
import SizedCache.Error
import SizedCache.RunSlot
import SizedCache.Scheduler
import SizedCache.Core
import SizedCache.Cache.Builder
import SizedCache.Cache.Run
import SizedCache.Request
import SizedCache.Http
import SizedCache.Proofs.Convergence
import SizedCache.Proofs.Mirror
import SizedCache.Proofs.OverCapacity
import SizedCache.Proofs.LruRefinement
import SizedCache.Proofs.WriteTrigger
import SizedCache.Proofs.RulePasses
import SizedCache.Proofs.Staleness
import SizedCache.Proofs.RequestLaws
import SizedCache.Proofs.TtlMap
import SizedCache.Proofs.Interleaving
import SizedCache.Proofs.SingleFlight
import SizedCache.Proofs.LoneAttempt
import SizedCache.Proofs.Contention
import SizedCache.Proofs.DisjointKeys
import SizedCache.Proofs.SkippedTrigger
import SizedCache.Proofs.Books
import SizedCache.Proofs.NamedVictims
import SizedCache.Proofs.Expiry
import SizedCache.Proofs.FailedPasses
import SizedCache.Proofs.OldestFirst
import SizedCache.Proofs.Reconciliation
import SizedCache.Proofs.BulkWrites
import SizedCache.Proofs.Computations
import SizedCache.Proofs.Traversals
import SizedCache.Proofs.PeriodicSweeps
import SizedCache.Proofs.OneShots
import SizedCache.Proofs.RefusedRequests
import SizedCache.Proofs.StartUp
import SizedCache.Proofs.TouchHistory
