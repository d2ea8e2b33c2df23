import LinuxDevelopment.Base.Bytes
import LinuxDevelopment.Base.Program
import LinuxDevelopment.Base.WriteBack
import LinuxDevelopment.Base.Transition
import LinuxDevelopment.Base.History
import LinuxDevelopment.Base.Protocol
import LinuxDevelopment.Base.Notes
import LinuxDevelopment.Base.Ring
import LinuxDevelopment.Base.Chain
import LinuxDevelopment.Base.Ledger
import LinuxDevelopment.Base.TwoRuns
import LinuxDevelopment.Simplefs.Layout
import LinuxDevelopment.Simplefs.Kernel
import LinuxDevelopment.Simplefs.Source
import LinuxDevelopment.Simplefs.Mkfs
import LinuxDevelopment.Simplefs.Vfs
import LinuxDevelopment.Simplefs.Execution
import LinuxDevelopment.Simplefs.Volume
import LinuxDevelopment.Simplefs.Memory
import LinuxDevelopment.Simplefs.Calls
import LinuxDevelopment.Simplefs.Calm
import LinuxDevelopment.Simplefs.StoreInvariant
import LinuxDevelopment.Simplefs.Tree
import LinuxDevelopment.Simplefs.Namespace
import LinuxDevelopment.Simplefs.Contents
import LinuxDevelopment.Simplefs.Effects
import LinuxDevelopment.Simplefs.Persistence
import LinuxDevelopment.Simplefs.Crash
import LinuxDevelopment.Simplefs.Reading
import LinuxDevelopment.Simplefs.AnyRun
import LinuxDevelopment.Simplefs.Atomicity
import LinuxDevelopment.Simplefs.BlockKinds
import LinuxDevelopment.Simplefs.Durability
import LinuxDevelopment.Simplefs.Bounds
import LinuxDevelopment.Simplefs.Format
import LinuxDevelopment.Simplefs.MkfsErrors
import LinuxDevelopment.Simplefs.Tolerance
import LinuxDevelopment.Simplefs.FreeMap
import LinuxDevelopment.Simplefs.Capacity
import LinuxDevelopment.Simplefs.PartialRead
import LinuxDevelopment.Simplefs.Listing
import LinuxDevelopment.Simplefs.WriteFailure
import LinuxDevelopment.Simplefs.Interleaving
import LinuxDevelopment.Simplefs.Locks
import LinuxDevelopment.Simplefs.Alone
import LinuxDevelopment.Simplefs.CreateSteps
import LinuxDevelopment.Simplefs.WriteSteps
import LinuxDevelopment.Simplefs.SameFile
import LinuxDevelopment.Simplefs.Mirror
import LinuxDevelopment.Simplefs.Serial
import LinuxDevelopment.Simplefs.Searches
import LinuxDevelopment.Simplefs.Agreement
import LinuxDevelopment.Simplefs.TwoDevices
import LinuxDevelopment.Simplefs.Secrecy
import LinuxDevelopment.Simplefs.Observers
import LinuxDevelopment.Simplefs.References
import LinuxDevelopment.Simplefs.Leaks
import LinuxDevelopment.Simplefs.Outstanding
import LinuxDevelopment.Globalfifo.Device
import LinuxDevelopment.Globalfifo.Queue
import LinuxDevelopment.Globalfifo.Wakeup
import LinuxDevelopment.Globalfifo.Compaction
import LinuxDevelopment.Globalfifo.Turn
import LinuxDevelopment.Globalfifo.Sequential
import LinuxDevelopment.Globalfifo.Progress
import LinuxDevelopment.Globalfifo.Notification
import LinuxDevelopment.Globalfifo.EdgeTriggered
import LinuxDevelopment.ThreadPool.Pool
import LinuxDevelopment.ThreadPool.Tasks
import LinuxDevelopment.ThreadPool.Partition
import LinuxDevelopment.ThreadPool.StopAll
import LinuxDevelopment.ThreadPool.Backlog
import LinuxDevelopment.Nojoin.Helper
import LinuxDevelopment.Arm.BubbleSort
import LinuxDevelopment.MultiThread.Semaphore
import LinuxDevelopment.MultiThread.CondVar
import LinuxDevelopment.IoModels.SelectModel
import LinuxDevelopment.IoModels.SelectServing
import LinuxDevelopment.IoModels.SelectEcho
import LinuxDevelopment.MultiProcess.RecvFd
import LinuxDevelopment.MultiProcess.Passing
