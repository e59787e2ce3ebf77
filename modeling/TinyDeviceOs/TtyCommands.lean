import TinyDeviceOs.TtyService
import TinyDeviceOs.AppTasks

/-! The commands of `apps/tty_service.c`. What they ask of apps, sensors, files and clocks is a
record of services on a state `ω`. -/
namespace TinyDeviceOs.TtyService

open LittleEndian LinkDispatch AppTasks

structure DeviceInfo where
  (osName osVersion arch : Option Bytes)
  (displayW displayH : UInt16)

/-- One of the service's own, or one that cannot print. -/
inductive Cli (ω : Type)
  | sensors
  | info
  | clock
  | other (run : List Bytes → ω → ω)

/-- `0` is success; an absent handler is null. -/
structure Services (ω : Type) where
  taskSlots : ω → List (Bytes × ℕ × ℕ)
  appList : ω → Option (List (Bytes × AppState))
  foregroundName : ω → Option Bytes
  appFind : Bytes → ω → Option AppState
  (appKitSwitch appKitRequestStop : Bytes → ω → ω × ℤ)
  appResume : Bytes → ω → ω
  appStop : Bytes → ω → ω × ℤ
  handleKey : ℕ → Bool → ω → ω
  /-- the keys of the sensors with what `sensor_get` returns for them -/
  sensors : ω → List (Option Bytes × Option ℤ)
  deviceInfo : ω → Option DeviceInfo
  clockNow : ω → ℤ
  (clockSet clockServiceSet : ℤ → ω → ω × ℤ)
  (freeHeap minFreeHeap : ω → ℕ)
  timeNowMs : ω → UInt32
  flashDir : ω → Option (List (Bytes × Bool))
  /-- a file as the pieces that `vfs_read` returns -/
  readFile : Bytes → ω → Option (List Bytes)
  strtol : Bytes → Option ℤ
  handlers : Option (Handlers ω)
  reboot : Option (ω → ω)
  cli : List (Bytes × Cli ω)

/-- How a command leaves the shell, if not in line mode. -/
inductive Turn
  | attach | htop | close

structure Reply (ω : Type) where
  world : ω
  texts : List Bytes
  turn : Option Turn

variable {ω : Type}

def say (w : ω) (texts : List Bytes) : Reply ω := ⟨w,texts,none⟩

def snprintf (n : ℕ) (s : Bytes) : Bytes := s.take (n-1)

def padRight (n : ℕ) (s : Bytes) : Bytes := s++List.replicate (n-s.length) 0x20

def decimal (z : ℤ) : Bytes := text (toString z)

def stateName : AppState → Bytes
  | .installed => text "installed"
  | .stopped => text "stopped"
  | .running => text "running"
  | .suspended => text "suspended"
  | .error => text "error"
  | .notInstalled => text "absent"

def taskRow (slot : Bytes × ℕ × ℕ) : Bytes :=
  snprintf 64 (padRight 16 slot.1++text " "++padRight 9 (decimal slot.2.1)++text " "++
    decimal slot.2.2++text "\n")

section

variable (sv : Services ω)

def taskRows (w : ω) : List Bytes :=
  ((sv.taskSlots w).filter fun slot => slot.1 ≠ []).map taskRow

def taskTable (w : ω) : List Bytes :=
  clearScreen::text "name             state     prio\n"::taskRows sv w

def sensorRow (sensor : Bytes × Option ℤ) : Bytes :=
  match sensor.2 with
  | none => snprintf 64 (sensor.1++text " ?\n")
  | some value => snprintf 64 (sensor.1++text " "++decimal value++text "\n")

def namedSensors (w : ω) : List (Bytes × Option ℤ) :=
  (sv.sensors w).filterMap fun sensor => sensor.1.map fun key => (key,sensor.2)

variable (argv : List Bytes)

section

variable (w : ω)

def cliSensors : Reply ω :=
  if argv.head? = some (text "sensor") then
    match argv.tail with
    | [] => say w [text "usage: sensor <key>\n"]
    | only::_ =>
      if sv.sensors w = [] then say w [text "no sensors\n"]
      else match (namedSensors sv w).find? fun sensor => sensor.1 = only with
        | some sensor => say w [sensorRow sensor]
        | none => say w [text "unknown sensor\n"]
  else if sv.sensors w = [] then say w [text "no sensors\n"]
  else say w ((namedSensors sv w).map sensorRow)

def cliInfo : Reply ω :=
  match sv.deviceInfo w with
  | none => say w [text "info failed\n"]
  | some info => say w [
      snprintf 80 (info.osName.getD (text "ArdubotOS")++text " "++info.osVersion.getD []++text "\n"),
      snprintf 80 (info.arch.getD []++text " "++decimal info.displayW.toNat++text "x"++
        decimal info.displayH.toNat++text "\n")]

def cliClock : Reply ω := say w [snprintf 48 (decimal (sv.clockNow w)++text "\n")]

def runCli : Cli ω → Reply ω
  | .sensors => cliSensors sv argv w
  | .info => cliInfo sv w
  | .clock => cliClock sv w
  | .other run => say (run argv w) []

def cmdHelp : Reply ω := say w [text "apps switch fg run kill key\n",
  text "sensors sensor top htop version date\n",text "help mem uptime ls cat clear\n",
  text "notify msg event restart exit\n",text "Ctrl+Z leaves an app, Ctrl+C cancels\n"]

def cmdApps : Reply ω :=
  match sv.appList w with
  | none => say w [text "apps failed\n"]
  | some apps =>
    if apps = [] then say w [text "no apps\n"]
    else say w (apps.map fun app => snprintf 80 (app.1++text " "++stateName app.2++
      (if sv.foregroundName w = some app.1 then text " *" else [])++text "\n"))

def focusApp (name : Bytes) (attach : Bool) (w : ω) : Reply ω :=
  let (w,rc) := sv.appKitSwitch name w
  if rc ≠ 0 then say w [text "unknown app\n"]
  else if attach then ⟨w,[text "attached ",name,text "\n"],some .attach⟩
  else say w []

def cmdSwitch : Reply ω :=
  match argv.tail with
  | [] => say w [text "usage: switch <app>\n"]
  | name::_ => focusApp sv name false w

def cmdFg : Reply ω :=
  match argv.tail with
  | [] => say w [text "usage: fg <app>\n"]
  | name::_ => focusApp sv name true w

def cmdRun : Reply ω :=
  match argv.tail with
  | [] => say w [text "usage: run <app>\n"]
  | name::args =>
    match sv.cli.find? fun cli => cli.1 = name with
    | some cli => runCli sv (name::args) w cli.2
    | none => focusApp sv name true w

/-- After `app_kit_request_stop` has failed. -/
def killRunning (name : Bytes) (wasFg : Bool) (w : ω) : Reply ω :=
  let (w,rc) := sv.appStop name w
  if rc ≠ 0 then say w [text "not running\n"]
  else
    let w := if wasFg && (sv.appFind (text "launcher") w).isSome
      then (sv.appKitSwitch (text "launcher") w).1 else w
    say w [text "killed\n"]

def cmdKill : Reply ω :=
  match argv.tail with
  | [] => say w [text "usage: kill <app>\n"]
  | name::_ =>
    if sv.appFind name w = none then say w [text "unknown app\n"]
    else
      let wasFg := sv.foregroundName w = some name
      let (w,rc) := sv.appKitRequestStop name w
      if rc = 0 then say w [text "killed\n"]
      else
        let w := if sv.appFind name w = some .suspended then sv.appResume name w else w
        if sv.appFind name w ≠ some .running then say w [text "not running\n"]
        else killRunning sv name wasFg w

def keyFromName (name : Bytes) : Option ℕ :=
  if name = text "up" then some keyUp
  else if name = text "down" then some keyDown
  else if name = text "left" then some keyLeft
  else if name = text "right" then some keyRight
  else if name = text "enter" ∨ name = text "select" then some keyEnter
  else if name = text "escape" then some keyEscape
  else none

def cmdKey : Reply ω :=
  match argv.tail with
  | [] => say w [text "usage: key <name>\n"]
  | name::args =>
    match keyFromName name with
    | none => say w [text "unknown key\n"]
    | some key =>
      if args.head? = some (text "up") then say (sv.handleKey key false w) [text "key up\n"]
      else say (sv.handleKey key true w) [text "key down\n"]

def cmdHtop : Reply ω := ⟨w,taskTable sv w++[text "Ctrl+C returns\n"],some .htop⟩

def cmdDate : Reply ω :=
  match argv.tail with
  | verb::number::_ =>
    if verb = text "set" then
      match sv.strtol number with
      | none => say w [text "usage: date set <unix>\n"]
      | some time =>
        let (w,rc) := sv.clockSet time w
        if rc ≠ 0 then say w [text "date failed\n"]
        else
          let (w,rc) := sv.clockServiceSet time w
          say w [snprintf 64 (text "date "++decimal (sv.clockNow w)++
            (if rc ≠ 0 then text " (not stored)" else [])++text "\n")]
    else say w [snprintf 64 (decimal (sv.clockNow w)++text "\n")]
  | _ => say w [snprintf 64 (decimal (sv.clockNow w)++text "\n")]

def cmdMem : Reply ω := say w [
  snprintf 64 (text "free "++decimal (sv.freeHeap w)++text "\n"),
  snprintf 64 (text "min "++decimal (sv.minFreeHeap w)++text "\n")]

def cmdUptime : Reply ω :=
  say w [snprintf 48 (decimal (sv.timeNowMs w).toNat++text " ms\n")]

def cmdLs : Reply ω :=
  match sv.flashDir w with
  | none => say w [text "cannot open /flash\n"]
  | some entries => say w (entries.map fun entry =>
      snprintf 80 (entry.1++(if entry.2 then text "/" else [])++text "\n"))

def cmdCat : Reply ω :=
  match argv.tail with
  | [] => say w [text "usage: cat <file>\n"]
  | name::_ =>
    match sv.readFile (snprintf 128 (text "/flash/"++name)) w with
    | none => say w [text "cannot open\n"]
    | some pieces => say w (pieces.map cstr++[text "\n"])

def bound {α : Type} (handler : Handlers ω → Option α) : Option α := sv.handlers.bind handler

def cmdNotify : Reply ω :=
  match argv.tail,bound sv Handlers.notify with
  | title::_,some notify =>
    let (w,rc) := notify title none 0 0 w
    say w [if rc ≠ 0 then text "notify failed\n" else text "ok\n"]
  | _,_ => say w [text "usage: notify <title>\n"]

def cmdMsg : Reply ω :=
  match argv.tail,bound sv Handlers.message with
  | app::name::_,some message =>
    let (w,rc) := message app name w
    say w [if rc ≠ 0 then text "unknown app\n" else text "ok\n"]
  | _,_ => say w [text "usage: msg <app> <text>\n"]

def cmdEvent : Reply ω :=
  match argv.tail,bound sv Handlers.event with
  | app::name::_,some event =>
    let (w,rc) := event app name [] w
    say w [if rc ≠ 0 then text "unknown app\n" else text "ok\n"]
  | _,_ => say w [text "usage: event <app> <name>\n"]

/-- The host closes the port at the last byte. -/
def cmdExit : Reply ω := ⟨w,[text "bye\n",[0x04]],some .close⟩

def cmdRestart : Reply ω :=
  say (match sv.reboot with
    | some reboot => reboot w
    | none => w) [text "restarting\n"]

end

/-- The comparisons of `exec_line`, in their order. -/
def commands : List (String × (List Bytes → ω → Reply ω)) :=
  [("help",fun _ => cmdHelp),("apps",fun _ => cmdApps sv),("switch",cmdSwitch sv),("fg",cmdFg sv),
    ("run",cmdRun sv),("kill",cmdKill sv),("key",cmdKey sv),("sensors",cliSensors sv),
    ("sensor",cliSensors sv),("top",fun _ w => say w (taskTable sv w)),("htop",fun _ => cmdHtop sv),
    ("version",fun _ => cliInfo sv),("date",cmdDate sv),("mem",fun _ => cmdMem sv),
    ("uptime",fun _ => cmdUptime sv),("ls",fun _ => cmdLs sv),("cat",cmdCat sv),
    ("clear",fun _ w => say w [clearScreen]),("notify",cmdNotify sv),("msg",cmdMsg sv),
    ("event",cmdEvent sv),("restart",fun _ => cmdRestart sv),("exit",fun _ => cmdExit),
    ("close",fun _ => cmdExit)]

/-- What `exec_line` does with words. -/
def execWords (w : ω) : Reply ω :=
  match (commands sv).find? fun command => argv.head? = some (text command.1) with
  | some command => command.2 argv w
  | none => say w [text "unknown command\n"]

end

def takeTurn (t : Tty) : Option Turn → Tty
  | none => t
  | some .attach => { t with mode := .attach, escape := .normal }
  | some .htop => { t with mode := .htop, htopArmed := false, htopMs := 0 }
  | some .close => { t with closed := true }

def shell (sv : Services ω) : Shell ω where
  command argv st :=
    let r := execWords sv argv st.2
    (r.texts.foldl ttyPuts (takeTurn st.1 r.turn),r.world)
  tapKey key w := sv.handleKey key false (sv.handleKey key true w)
  taskRows := taskRows sv

end TinyDeviceOs.TtyService
