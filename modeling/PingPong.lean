import PingPong.TransitionSystem
import PingPong.TokenRing
import PingPong.Workers
import PingPong.CommEndpoints
import PingPong.CommChannel
import PingPong.CommFutex
import PingPong.CommFutexStop
import PingPong.CommFutexWake
import PingPong.CommSemaphore
import PingPong.CommSemaphoreToken
import PingPong.CommSignal
import PingPong.CommSignalToken
import PingPong.Activation
import PingPong.MonitorState
import PingPong.MonitorProgram
import PingPong.MonitorFrame
import PingPong.MonitorFootprint
import PingPong.MonitorReaping
import PingPong.MonitorPids
import PingPong.MonitorNesting
import PingPong.MonitorSuspend
import PingPong.MonitorStopWait
import PingPong.MonitorReport
import PingPong.History
import PingPong.CommInotify
import PingPong.CommInotifyReads
import PingPong.CommSpin
import PingPong.CommSpinToken
import PingPong.MonitorBarrier
import PingPong.MonitorStart
import PingPong.MonitorReady
import PingPong.MonitorStopFlag
import PingPong.MonitorClock
import PingPong.MonitorInterrupt
import PingPong.MonitorTimeout
import PingPong.MonitorBaseline
import PingPong.StatsPeriodic
import PingPong.StatsTotals
import PingPong.Decimal
import PingPong.CString
import PingPong.FixedPoint
import PingPong.SubsecString
import PingPong.SubsecNumeral
import PingPong.StatsColumns
import PingPong.StatsColumnsText
import PingPong.SpinOptions
import PingPong.CMemory
import PingPong.SchedLines
import PingPong.SchedTable
import PingPong.CommRegistry
import PingPong.CommRegistryNames
import PingPong.ParseSched
import PingPong.FieldCommands
import PingPong.ParseOpts
import PingPong.MonitorTimer
import PingPong.MonitorSchedule
import PingPong.UpdateOption
import PingPong.PageAlign
import PingPong.StrToTimeval
import PingPong.Qsort
import PingPong.SpinNumbering
import PingPong.Printf
import PingPong.ExitFail
import PingPong.Getopt
import PingPong.CommandLine
import PingPong.Startup
import PingPong.CommRace
import PingPong.Unrolling
import PingPong.CommSpinUnrolled
import PingPong.SchedReport
import PingPong.StatsReport
import PingPong.Allocation
import PingPong.CommRegistryHeap
import PingPong.CommSemaphoreReuse
import PingPong.Fairness
import PingPong.CommSpinLive
import PingPong.CommSemaphoreLive
import PingPong.CommChannelLive
import PingPong.Words
import PingPong.StatsLine
import PingPong.CommSignalLive
import PingPong.CommSignalReads
import PingPong.CommFutexLive
import PingPong.CommFutexTest
import PingPong.MonitorEnding
import PingPong.CommInotifyToken
import PingPong.CommInotifyLive
