import Xv6.WaitRuns
import Xv6.KillPids
import Xv6.LogRoom
import Xv6.SleepWakeup
import Xv6.PipeFault
import Xv6.PipeRuns
import Xv6.FileRuns
import Xv6.ShellPrint
import Xv6.VirtioRuns
import Xv6.ItableRuns
import Xv6.BuddyChecks
import Xv6.PsParent
import Xv6.ForkTrace
import Xv6.WorkTime
import Xv6.UmallocSbrk
import Xv6.CopyStrings
import Xv6.BcacheRuns
import Xv6.GrowExact
import Xv6.GrepLines
import Xv6.FsDirs
import Xv6.LogDisk
