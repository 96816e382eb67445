import Pevm.Hybrid.RoundTrip
import Pevm.PerpDex.Batch
import Pevm.PerpDex.Collateral
import Pevm.Lib.Transition
import Pevm.Scheduler
import Pevm.Scheduler.Workers
import Pevm.Scheduler.Invariant
import Pevm.Scheduler.Preservation
import Pevm.Scheduler.Progress
import Pevm.Lib.VersionMap
import Pevm.MvMemory
import Pevm.Pexe
import Pevm.Pexe.Coverage
import Pevm.Pexe.Program
import Pevm.Pexe.History
import Pevm.Pexe.Serial
import Pevm.Account
import Pevm.Lib.Saturating
import Pevm.VmDb
import Pevm.LazyEvaluation
import Pevm.VmDb.LazyRead
import Pevm.Vm
import Pevm.Scheduler.Ownership
import Pevm.Scheduler.Threads
import Pevm.Scheduler.Exclusive
import Pevm.Pexe.LateValidation
import Pevm.Scheduler.Counter
import Pevm.Scheduler.MinValidation
import Pevm.VmDb.Origins
import Pevm.VmDb.Performs
import Pevm.VmDb.Validation
import Pevm.Vm.Machine
import Pevm.Pexe.Retry
import Pevm.Chain
import Pevm.Chain.Estimates
import Pevm.PerpDex.History
import Pevm.Vm.Completed
import Pevm.Vm.Destroyed
import Pevm.Vm.WriteSet
import Pevm.LazyEvaluation.Columns
import Pevm.Vm.Transfers
import Pevm.Hybrid.Watched
import Pevm.Hybrid.Safety
import Pevm.Hybrid.Unambiguous
import Pevm.Lib.Wrapping
import Pevm.PerpDex.Position
import Pevm.PerpDex.Fills
import Pevm.PerpDex.OrderIndex
import Pevm.PerpDex.OrderIds
import Pevm.Pexe.Aborts
import Pevm.Pexe.Reuse
import Pevm.VmDb.Calls
import Pevm.LazyEvaluation.Calls
import Pevm.Vm.Calls
import Pevm.Pexe.Sequential
import Pevm.Pexe.StorageFailure
import Pevm.MvMemory.Record
import Pevm.PerpDex.EntryPrice
import Pevm.PerpDex.Frame
import Pevm.PerpDex.ReadSet
import Pevm.PerpDex.IndexMirror
import Pevm.PerpDex.Partition
import Pevm.Chain.Rewards
import Pevm.Vm.Deposits
import Pevm.Snapshot
import Pevm.Snapshot.Replay
import Pevm.Scheduler.Attended
import Pevm.Scheduler.Waiting
import Pevm.Pexe.Chronicle
import Pevm.Vm.Revm
import Pevm.Vm.Runs
import Pevm.Vm.Reexecution
import Pevm.PerpDex.Users
import Pevm.PerpDex.Nonces
import Pevm.Pexe.Unaborted
import Pevm.PerpDex.Kept
import Pevm.Lib.Occurrences
import Pevm.Lib.Termination
import Pevm.Scheduler.Polls
import Pevm.Pexe.Restarts
import Pevm.Pexe.Bounded
import Pevm.Pexe.Termination
import Pevm.Pexe.Completion
import Pevm.Lib.Rlp
import Pevm.Lib.LockOrder
import Pevm.Chain.Receipts
