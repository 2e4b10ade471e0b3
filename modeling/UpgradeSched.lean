import UpgradeSched.Interleaving.System
import UpgradeSched.Interleaving.Gate
import UpgradeSched.Interleaving.Wakeup
import UpgradeSched.Interleaving.Solo
import UpgradeSched.Interleaving.Measure
import UpgradeSched.Interleaving.Mutex
import UpgradeSched.Interleaving.Refinement
import UpgradeSched.Interleaving.Pool
import UpgradeSched.Scheduler.Task
import UpgradeSched.Scheduler.Steal
import UpgradeSched.Scheduler.Queue
import UpgradeSched.Scheduler.Memory
import UpgradeSched.Scheduler.Calls
import UpgradeSched.Scheduler.Worker
import UpgradeSched.Scheduler.World
import UpgradeSched.Scheduler.Step
import UpgradeSched.Accounting.Presence
import UpgradeSched.Accounting.Custody
import UpgradeSched.Accounting.Deques
import UpgradeSched.Accounting.Slots
import UpgradeSched.Accounting.Drain
import UpgradeSched.Accounting.Identity
import UpgradeSched.Accounting.Capacity
import UpgradeSched.Accounting.Workforce
import UpgradeSched.Accounting.Numbering
import UpgradeSched.Accounting.Statistics
import UpgradeSched.Accounting.Submissions
import UpgradeSched.Wakeups.Sleepers
import UpgradeSched.Wakeups.Notifiers
import UpgradeSched.Wakeups.SleepKinds
import UpgradeSched.Wakeups.Watchers
import UpgradeSched.Locks.Discipline
import UpgradeSched.Priority.Selector
import UpgradeSched.Priority.Streak
import UpgradeSched.Priority.Swept
import UpgradeSched.Priority.Layout
import UpgradeSched.Priority.Backlog
import UpgradeSched.Priority.Inversion
import UpgradeSched.Priority.Fairness
import UpgradeSched.Priority.Yields
import UpgradeSched.Priority.Starvation
import UpgradeSched.Priority.Order
import UpgradeSched.Search.Victims
import UpgradeSched.Search.Cursors
import UpgradeSched.Search.Completeness
import UpgradeSched.Search.Overflow
import UpgradeSched.Search.Peers
import UpgradeSched.Locks.Blocked
import UpgradeSched.Search.Selection
import UpgradeSched.Search.Draining
import UpgradeSched.Search.Returning
import UpgradeSched.Locks.Sections
import UpgradeSched.Accounting.Teardown
import UpgradeSched.Accounting.Hiring
import UpgradeSched.Guarantees.Execution
import UpgradeSched.Guarantees.Shutdown
import UpgradeSched.Guarantees.Barrier
import UpgradeSched.Guarantees.GroupBarrier
import UpgradeSched.Guarantees.Waiting
import UpgradeSched.Guarantees.Stopping
import UpgradeSched.Guarantees.Reaching
import UpgradeSched.Guarantees.Sleeping
import UpgradeSched.Guarantees.Stranding
import UpgradeSched.Guarantees.Snapshots
import UpgradeSched.Guarantees.Admission
import UpgradeSched.Guarantees.GroupAccounting
import UpgradeSched.Guarantees.Destruction
import UpgradeSched.Guarantees.Contention
import UpgradeSched.Locks.Quiescence
import UpgradeSched.Guarantees.Closing
import UpgradeSched.Guarantees.Answers
import UpgradeSched.Guarantees.Reports
import UpgradeSched.Guarantees.Entanglement
import UpgradeSched.Guarantees.Refinement
import UpgradeSched.Guarantees.Effort
import UpgradeSched.Guarantees.Termination
