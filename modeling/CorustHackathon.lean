import CorustHackathon.Runs
import CorustHackathon.Executions
import CorustHackathon.Termination
import CorustHackathon.Locks
import CorustHackathon.Condvar
import CorustHackathon.Arcs
import CorustHackathon.Keys
import CorustHackathon.HashSets
import CorustHackathon.TaskManager.State
import CorustHackathon.TaskManager.Step
import CorustHackathon.TaskManager.Sequential
import CorustHackathon.TaskManager.LockInvariant
import CorustHackathon.TaskManager.Invariant
import CorustHackathon.TaskManager.Deadlock
import CorustHackathon.TaskManager.Permits
import CorustHackathon.TaskManager.Spec
import CorustHackathon.TaskManager.Refinement
import CorustHackathon.TaskManager.History
import CorustHackathon.TaskManager.Endings
import CorustHackathon.TaskManager.Cancel
import CorustHackathon.TaskManager.Ongoing
import CorustHackathon.TaskManager.Shutdown
import CorustHackathon.TaskManager.WorkConserving
import CorustHackathon.TaskManager.World
import CorustHackathon.TaskManager.Conservation
import CorustHackathon.TaskManager.FailedSpawn
import CorustHackathon.TaskManager.Prompt
import CorustHackathon.TaskManager.DropReturns
import CorustHackathon.TaskManager.Contexts
import CorustHackathon.BasicTaskManager.Manager
import CorustHackathon.BasicTaskManager.Tasks
import CorustHackathon.BasicTaskManager.SleepTasks
import CorustHackathon.ZombieThread.Foo
import CorustHackathon.ZombieThread.NoZombie
import CorustHackathon.ZombieThread.ErrorFeature
import CorustHackathon.ArcSwap.App
import CorustHackathon.ArcSwap.Sharing
import CorustHackathon.ArcSwap.Histories
import CorustHackathon.BorrowKey.Macro
import CorustHackathon.BorrowKey.Accepts
import CorustHackathon.BorrowKey.Errors
import CorustHackathon.BorrowKey.Sets
import CorustHackathon.BorrowKey.Contract
import CorustHackathon.ParameterInjection.Scheduler
import CorustHackathon.ParameterInjection.Injection
import CorustHackathon.ParameterInjection.Isolation
import CorustHackathon.ParameterInjection.SystemParam
import CorustHackathon.LimitConcurrency.Classic
import CorustHackathon.LimitConcurrency.Invariant
import CorustHackathon.LimitConcurrency.Limit
import CorustHackathon.LimitConcurrency.Sequential
import CorustHackathon.TailingFile.State
import CorustHackathon.TailingFile.Step
import CorustHackathon.TailingFile.Invariant
import CorustHackathon.TailingFile.Delivery
import CorustHackathon.TailingFile.Wakeup
import CorustHackathon.TailingFile.LostWakeup
import CorustHackathon.TailingFile.Returns
import CorustHackathon.TailingFile.Panic
import CorustHackathon.TailingFile.Suffix
import CorustHackathon.TailingFile.ModifiedOnly
