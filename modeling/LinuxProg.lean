import LinuxProg.Life.Menu
import LinuxProg.Life.Format
import LinuxProg.Paging.Recency
import LinuxProg.Paging.Optimal
import LinuxProg.Paging.Decode
import LinuxProg.Crossroad.Spurious
import LinuxProg.Crossroad.Clock
import LinuxProg.Myls.Merge
import LinuxProg.Sched.Burst
import LinuxProg.Top.Scroll
import LinuxProg.Myls.Times
import LinuxProg.Myls.Slots
import LinuxProg.Myls.Reverse
import LinuxProg.Sched.Fork
import LinuxProg.Syscalls.Token
import LinuxProg.Mychmod.Mode
import LinuxProg.Paging.Distances
import LinuxProg.Paging.Steady
import LinuxProg.Lib.Chains
import LinuxProg.Sched.WakeQueue
import LinuxProg.Sched.WakeHistory
import LinuxProg.Lib.Trees
import LinuxProg.Sched.Groups
import LinuxProg.Sched.Bandwidth
import LinuxProg.Sched.Limits
import LinuxProg.Lib.Inherited
import LinuxProg.Sched.Clamps
import LinuxProg.Sched.PreOrder
import LinuxProg.Sched.GroupClamps
import LinuxProg.Sched.Effective
import LinuxProg.Lib.Buckets
import LinuxProg.Sched.ClampQueues
import LinuxProg.Sched.ClampRuns
import LinuxProg.Sched.Priority
import LinuxProg.Sched.Policies
import LinuxProg.Lib.Competitive
import LinuxProg.Paging.Competitive
import LinuxProg.Crossroad.Transcript
