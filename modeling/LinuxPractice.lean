import LinuxPractice.CLib.Bytes
import LinuxPractice.CLib.CharArray
import LinuxPractice.CLib.Getopt
import LinuxPractice.CLib.Stdio
import LinuxPractice.CLib.Strtol
import LinuxPractice.CLib.Numeral
import LinuxPractice.Kernel.Credentials
import LinuxPractice.Kernel.File
import LinuxPractice.Kernel.Transfer
import LinuxPractice.Kernel.Descriptors
import LinuxPractice.Kernel.Interleave
import LinuxPractice.Kernel.Runs
import LinuxPractice.Tlpi.GetNum
import LinuxPractice.Tlpi.ReadLine
import LinuxPractice.Tlpi.Rdwrn
import LinuxPractice.Tlpi.SeekIo
import LinuxPractice.Tlpi.SeqNum
import LinuxPractice.Tlpi.SemInit
import LinuxPractice.Tlpi.SemOps
import LinuxPractice.Tlpi.Setenv
import LinuxPractice.Tlpi.MultiJoin
import LinuxPractice.Tlpi.MultiJoinRuns
import LinuxPractice.Tlpi.FileServer
import LinuxPractice.Tlpi.FileServerRuns
import LinuxPractice.Tlpi.PidFile
import LinuxPractice.Tlpi.ShmXfr
import LinuxPractice.Tlpi.ShmXfrPhases
import LinuxPractice.Tlpi.ShmXfrRuns
import LinuxPractice.Chap4.CpHoles
import LinuxPractice.Chap4.Tee
import LinuxPractice.Chap5.AtomicAppend
import LinuxPractice.Chap5.ExclusiveOpen
import LinuxPractice.Chap5.GetNum
import LinuxPractice.Chap5.Dup1
import LinuxPractice.Chap5.DupFdShare
import LinuxPractice.Chap7.FreeAndSbrk
import LinuxPractice.Chap9.DropPrivileges
import LinuxPractice.Chap12.Trim
import LinuxPractice.Chap12.LineLoop
import LinuxPractice.Chap12.UserProcs
import LinuxPractice.Chap12.UserProcsLine
import LinuxPractice.Chap12.UserProcsFields
import LinuxPractice.Chap12.UserProcsTrim
import LinuxPractice.Chap12.StatusText
import LinuxPractice.Chap12.UserProcsOwner
import LinuxPractice.Chap12.UserProcsScan
import LinuxPractice.Chap12.UserProcsArg
import LinuxPractice.Chap12.Pstree
import LinuxPractice.Chap12.PstreeFields
import LinuxPractice.Chap12.PstreeTrim
import LinuxPractice.Chap12.PstreeParent
import LinuxPractice.Chap12.PstreeScan
import LinuxPractice.Chap12.PstreeFork
import LinuxPractice.Chap12.PstreeName
import LinuxPractice.Chap12.ProcPaths
import LinuxPractice.Chap13.Copy
import LinuxPractice.CLib.Pathname
import LinuxPractice.Kernel.DirTree
import LinuxPractice.Tlpi.InotifyDtree
import LinuxPractice.Tlpi.InotifyDtreeRuns
