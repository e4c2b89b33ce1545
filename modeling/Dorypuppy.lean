import Dorypuppy.Native.Emit
import Dorypuppy.Native.ExitJoin
import Dorypuppy.Native.FailedSpawn
import Dorypuppy.Native.Handles
import Dorypuppy.Native.LeftOpen
import Dorypuppy.Native.Memory
import Dorypuppy.Native.Watchdog
import Dorypuppy.Native.Interleavings
import Dorypuppy.Java.Strings
import Dorypuppy.Java.Environment
import Dorypuppy.Java.Marshal
import Dorypuppy.Manager.Signals
import Dorypuppy.Manager.Start
import Dorypuppy.Manager.Kill
import Dorypuppy.Manager.NativeKill
import Dorypuppy.Manager.PidReuse
import Dorypuppy.Manager.Registry
import Dorypuppy.Manager.Delivery
import Dorypuppy.Manager.ExitStep
import Dorypuppy.Manager.Running
import Dorypuppy.Manager.Independent
import Dorypuppy.Manager.Listening
import Dorypuppy.Manager.Progress
import Dorypuppy.Manager.UvMutex
import Dorypuppy.Manager.Status
import Dorypuppy.Manager.LifeCycle
import Dorypuppy.Manager.Children
import Dorypuppy.Manager.Accounts
import Dorypuppy.Manager.Copies
import Dorypuppy.Manager.Timeouts
import Dorypuppy.Example.Main
