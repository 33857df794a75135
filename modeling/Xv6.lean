import Xv6.Memmove
import Xv6.MapPages
import Xv6.Growth
import Xv6.PageCount
import Xv6.ForkFail
import Xv6.CopyoutAgrees
import Xv6.ExecCommit
import Xv6.RefCount.Run
import Xv6.Isolation
import Xv6.Sbrk
import Xv6.Progress
import Xv6.Cover
import Xv6.CowSim
import Xv6.Scheduler
import Xv6.Mysh.Parse
import Xv6.Mysh.Pipeline
import Xv6.Log.Admission
import Xv6.Fs.Paths
import Xv6.Fs.Writers
import Xv6.Fs.MkfsMain
import Xv6.Console
import Xv6.Locks
import Xv6.Sleep
import Xv6.BcacheRuns
import Xv6.Grep.Mygrep
import Xv6.Mp
import Xv6.Umalloc.Sound
