import TinyDeviceOs.AllocAlign
import TinyDeviceOs.AllocFit
import TinyDeviceOs.AppContexts
import TinyDeviceOs.AppLock
import TinyDeviceOs.AppMenu
import TinyDeviceOs.ClockService
import TinyDeviceOs.ConfigDamage
import TinyDeviceOs.ConfigFile
import TinyDeviceOs.ConfigMap
import TinyDeviceOs.DisplayFb
import TinyDeviceOs.DriverCounts
import TinyDeviceOs.DriverHandles
import TinyDeviceOs.Ecs
import TinyDeviceOs.EventLedger
import TinyDeviceOs.EventLock
import TinyDeviceOs.KeyBindings
import TinyDeviceOs.KeyEdges
import TinyDeviceOs.LinkAes
import TinyDeviceOs.LinkErrors
import TinyDeviceOs.LinkHandshake
import TinyDeviceOs.LinkMessages
import TinyDeviceOs.LinkReplay
import TinyDeviceOs.LinkReplyRuns
import TinyDeviceOs.LinkTlv
import TinyDeviceOs.ModuleBounds
import TinyDeviceOs.OtaMetadata
import TinyDeviceOs.PowerFreqs
import TinyDeviceOs.PowerSafety
import TinyDeviceOs.RateLimiter
import TinyDeviceOs.SchedulerDelete
import TinyDeviceOs.SchedulerNesting
import TinyDeviceOs.SchedulerSleep
import TinyDeviceOs.SchedulerTurns
import TinyDeviceOs.StreamResync
import TinyDeviceOs.TaskReuse
import TinyDeviceOs.TimeSleep
import TinyDeviceOs.TimedTools
import TinyDeviceOs.TimerSchedule
import TinyDeviceOs.TtySessions
import TinyDeviceOs.UiGrid
import TinyDeviceOs.UiTabOrder
import TinyDeviceOs.Vfs
import TinyDeviceOs.YamlUpdate
