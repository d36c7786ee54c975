import HpsSf.Config.Casing
import HpsSf.Config.FromString
import HpsSf.Config.Load
import HpsSf.Config.Registry
import HpsSf.Config.RoundTrip
import HpsSf.Config.Updates
import HpsSf.Fiber.Switching
import HpsSf.IOManager.Bounds
import HpsSf.IOManager.Cancelling
import HpsSf.IOManager.Growth
import HpsSf.IOManager.Hook
import HpsSf.IOManager.Idling
import HpsSf.IOManager.Kernel
import HpsSf.IOManager.Pending
import HpsSf.IOManager.Readiness
import HpsSf.IOManager.Registration
import HpsSf.IOManager.Shutdown
import HpsSf.IOManager.Sleep
import HpsSf.IOManager.Slots
import HpsSf.Log.Attachment
import HpsSf.Log.Dump
import HpsSf.Log.Guarded
import HpsSf.Log.History
import HpsSf.Log.Misreading
import HpsSf.Log.Prepared
import HpsSf.Log.Progress
import HpsSf.Log.Reload
import HpsSf.Log.Routing
import HpsSf.Scheduler.Affinity
import HpsSf.Scheduler.Cycling
import HpsSf.Scheduler.Endings
import HpsSf.Scheduler.Fifo
import HpsSf.Scheduler.Leaks
import HpsSf.Scheduler.RoundRobin
import HpsSf.Scheduler.Service
import HpsSf.Scheduler.Suspension
import HpsSf.Thread.Guards
import HpsSf.Thread.Handshake
import HpsSf.Timer.Comparator
import HpsSf.Timer.Condition
import HpsSf.Timer.Expiry
import HpsSf.Timer.Membership
import HpsSf.Timer.Periods
import HpsSf.Timer.Stranded
import HpsSf.Timer.Wakeup
