import Spoond.Gc.Passes
import Spoond.Overcommit.Theorems
import Spoond.FreePages.Theorems
import Spoond.Quota.Theorems
import Spoond.Service.Theorems
import Spoond.Service.Interleaving.Theorems
import Spoond.Service.Fork.Theorems
import Spoond.Service.Checkpoint.Theorems
import Spoond.Service.Restart.Theorems
import Spoond.Service.Release.Theorems
import Spoond.AdmitQueue.Theorems
import Spoond.AdmitQueue.Announcements
import Spoond.AdmitQueue.Wake.Theorems
import Spoond.Events.Theorems
import Spoond.Events.Stream
import Spoond.FairShares.Theorems
import Spoond.Network.Ceiling
import Spoond.Jobs.Terminal
import Spoond.Gc.Orphans.Theorems
import Spoond.Secrets.Window
import Spoond.Identity.Failures
import Spoond.Runner.Stops
import Spoond.Snapshots.Versions
import Spoond.Snapshots.Limit
import Spoond.Snapshots.Keys
import Spoond.Snapshots.Budget
import Spoond.Snapshots.Retention
import Spoond.Kept.Pins
import Spoond.Idle.Marks
import Spoond.TakeBack.Heap
import Spoond.TakeBack.Admission
import Spoond.TakeBack.Pressure
import Spoond.Notify.Resolutions
import Spoond.Notify.Orderly
import Spoond.Runner.Shutdown
import Spoond.Disk
import Spoond.Disk.Victims
import Spoond.Network.Rendering
import Spoond.SelfToken
import Spoond.Envd
import Spoond.Retry
import Spoond.JobCap
import Spoond.Records
