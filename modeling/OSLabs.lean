import OSLabs.Shell.ParsingSafety
import OSLabs.Shell.WellFormed
import OSLabs.Shell.RoundTrip
import OSLabs.Shell.EmptyCommand
import OSLabs.Shell.Wiring
import OSLabs.Shell.Ledger
import OSLabs.Shell.EndOfFile
import OSLabs.Shell.FailureAtomic
import OSLabs.Shell.History
import OSLabs.Shell.Session
import OSLabs.Kernel.Values
import OSLabs.Kernel.Wakeup
import OSLabs.Kernel.Tokens
import OSLabs.Kernel.LockOrder
import OSLabs.Kernel.Closing
import OSLabs.Kernel.Killing
import OSLabs.Kernel.Bounds
import OSLabs.Kernel.Counting
import OSLabs.Kernel.PipeEnds
import OSLabs.Kernel.LogCrash
import OSLabs.Kernel.FamilyKids
import OSLabs.Kernel.SleepRuns
import OSLabs.User.PingpongExits
import OSLabs.User.AllocatorReturns
import OSLabs.Bench.Timing
