import Mathlib.Data.UInt
import TinyDeviceOs.Runs

/-! The power governor of `kernel/power_governor.c`. The sensor is read at most twice per window; a
tick brings its answers, `none` for a read that fails. What `apply_level` does is left out: nothing
here reads it. -/
namespace TinyDeviceOs.PowerGovernor

def powerWindowMs : UInt32 := 100
def powerQuietWindows : UInt32 := 3
def powerSustainedWindows : UInt32 := 3
def powerFullPercent : UInt32 := 80
def powerTempHotC : ℤ := 70
def powerTempRecoverC : ℤ := 60
def powerLightSleepMinMs : UInt32 := 50

inductive Demand
  | unset | idle | low | normal | high
  deriving DecidableEq

def Demand.rank : Demand → ℕ
  | .unset => 0
  | .idle => 1
  | .low => 2
  | .normal => 3
  | .high => 4

def demandOf : ℕ → Option Demand
  | 0 => some .unset
  | 1 => some .idle
  | 2 => some .low
  | 3 => some .normal
  | 4 => some .high
  | _ => none

inductive Level
  | cool | economy | balanced | performance
  deriving DecidableEq

def Level.rank : Level → ℕ
  | .cool => 0
  | .economy => 1
  | .balanced => 2
  | .performance => 3

def Level.succ : Level → Level
  | .cool => .economy
  | .economy => .balanced
  | .balanced => .performance
  | .performance => .performance

def Level.pred : Level → Level
  | .cool => .cool
  | .economy => .cool
  | .balanced => .economy
  | .performance => .balanced

structure Governor where
  level : Level
  foreground : Demand
  (busy idle busyTotal idleTotal : UInt32)
  windowDemand : Demand
  sawBusyDemand : Bool
  (quietStreak fullStreak : UInt32)
  sustainedHold : Bool
  heldLevel : Level
  (thermal haveWindow : Bool)
  (windowStartedMs lightSleepMs : UInt32)
  deriving DecidableEq

def ceilingFor (demand : Demand) : Level :=
  if Demand.high.rank ≤ demand.rank then .performance
  else if Demand.normal.rank ≤ demand.rank then .performance
  else .economy

section

variable (g : Governor)

def effectiveDemand : Demand :=
  let hint := if g.sawBusyDemand ∧ g.foreground.rank < g.windowDemand.rank then g.windowDemand
    else g.foreground
  if hint = .unset then .normal else hint

def Level.cut (level ceiling : Level) : Level := if ceiling.rank < level.rank then ceiling else level

/-- Of `choose_level`, before the last cut. -/
def stepDown : Governor :=
  let g := { g with fullStreak := 0, quietStreak := g.quietStreak+1 }
  if powerQuietWindows ≤ g.quietStreak ∧ Level.economy.rank < g.level.rank then
    { g with level := g.level.pred, quietStreak := 0 }
  else g

/-- The level that a sustained full load is held at. -/
def holdLevel (ceiling : Level) : Level :=
  if Level.economy.rank < ceiling.rank then ceiling.pred else ceiling

def stepUp (ceiling : Level) : Governor :=
  if g.level.rank < ceiling.rank then { g with level := g.level.succ } else g

def chooseLevel (hint : Demand) (quiet full : Bool) : Governor :=
  let ceiling := ceilingFor hint
  if g.thermal then { g with sustainedHold := false, level := .cool }
  else
    let g := { g with level := g.level.cut ceiling }
    if g.sustainedHold ∧ quiet = false then
      { g with heldLevel := g.heldLevel.cut ceiling, level := g.heldLevel.cut ceiling }
    else
      let g := { g with sustainedHold := false }
      if quiet then
        let g := stepDown g
        { g with level := g.level.cut ceiling }
      else
        let g := { g with quietStreak := 0 }
        if full ∧ hint.rank < Demand.high.rank then
          let g := { g with fullStreak := g.fullStreak+1 }
          if powerSustainedWindows ≤ g.fullStreak then
            { g with
              sustainedHold := true
              heldLevel := holdLevel ceiling
              level := holdLevel ceiling
              fullStreak := 0 }
          else
            let g := stepUp g ceiling
            { g with level := g.level.cut ceiling }
        else
          let g := stepUp { g with fullStreak := 0 } ceiling
          { g with level := g.level.cut ceiling }

/-- The thermal latch after a window, and the readings. -/
def senseHeat (thermal : Bool) (first second : Option ℤ) : Bool × List ℤ :=
  if thermal then
    if first.any (· ≤ powerTempRecoverC) then
      (second.any (powerTempHotC ≤ ·),first.toList++second.toList)
    else (true,first.toList)
  else (first.any (powerTempHotC ≤ ·),first.toList)

def isQuiet : Bool := g.busy = 0

/-- The product and the sum wrap. -/
def isFull : Bool :=
  let total := g.busy+g.idle
  let pct := if total = 0 then 0 else g.busy*100/total
  !isQuiet g && powerFullPercent ≤ pct

def closeWindow (nextWakeMs : UInt32) (anyRunnable : Bool)
    (first second : Option ℤ) : Governor :=
  let hint := effectiveDemand g
  let chosen := chooseLevel { g with thermal := (senseHeat g.thermal first second).1 } hint
    (isQuiet g) (isFull g)
  { chosen with
    lightSleepMs := if anyRunnable = false ∧ (chosen.level = .economy ∨ chosen.level = .cool) ∧
        powerLightSleepMinMs ≤ nextWakeMs ∧ nextWakeMs ≠ 0xFFFFFFFF then nextWakeMs else 0
    busy := 0
    idle := 0
    sawBusyDemand := false
    windowDemand := .unset }

def powerGovernorReset : Governor where
  level := .balanced
  foreground := .normal
  busy := 0
  idle := 0
  busyTotal := 0
  idleTotal := 0
  windowDemand := .unset
  sawBusyDemand := false
  quietStreak := 0
  fullStreak := 0
  sustainedHold := false
  heldLevel := .cool
  thermal := false
  haveWindow := false
  windowStartedMs := 0
  lightSleepMs := 0

/-- What an app may not publish is read as `NORMAL`. -/
def powerGovernorSetForegroundDemand (demand : ℕ) : Governor :=
  { g with foreground := match demandOf demand with
    | none => .normal
    | some d => if d = .unset then .normal else d }

def powerGovernorNoteIdle : Governor :=
  { g with idle := g.idle+1, idleTotal := g.idleTotal+1 }

/-- `none` is a null task. -/
def powerGovernorNoteBusy (task : Option Demand) : Governor :=
  let g := { g with busy := g.busy+1, busyTotal := g.busyTotal+1 }
  match task with
  | none => g
  | some demand =>
    if demand = .unset then g
    else if g.sawBusyDemand = false ∨ g.windowDemand.rank < demand.rank then
      { g with windowDemand := demand, sawBusyDemand := true }
    else g

def closes (nowMs : UInt32) : Bool :=
  g.haveWindow = false ∨ powerWindowMs ≤ nowMs-g.windowStartedMs

def powerGovernorTick (nowMs nextWakeMs : UInt32) (anyRunnable : Bool)
    (first second : Option ℤ) : Governor :=
  if closes g nowMs then
    closeWindow { g with haveWindow := true, windowStartedMs := nowMs } nextWakeMs anyRunnable
      first second
  else g

end

/-- The readings, the arguments of the tick, and the level before and after. -/
structure Window where
  foreground : Demand
  hints : List Demand
  hint : Demand
  readings : List ℤ
  nextWakeMs : UInt32
  anyRunnable : Bool
  (before after : Level)
  lightSleepMs : UInt32
  deriving DecidableEq

/-- The hints in this window, the readings, and the closed windows. -/
structure System where
  governor : Governor
  hints : List Demand
  readings : List ℤ
  windows : List Window
  deriving DecidableEq

inductive Op
  | noteIdle
  | noteBusy (task : Option Demand)
  | setForegroundDemand (demand : ℕ)
  | tick (nowMs nextWakeMs : UInt32) (anyRunnable : Bool) (first second : Option ℤ)

def start : System := ⟨powerGovernorReset,[],[],[]⟩

def hintOf (task : Option Demand) : List Demand := task.toList.filter (· ≠ .unset)

def step (s : System) : Op → System
  | .noteIdle => { s with governor := powerGovernorNoteIdle s.governor }
  | .noteBusy task =>
    { s with governor := powerGovernorNoteBusy s.governor task, hints := s.hints++hintOf task }
  | .setForegroundDemand demand =>
    { s with governor := powerGovernorSetForegroundDemand s.governor demand }
  | .tick nowMs nextWakeMs anyRunnable first second =>
    let g := powerGovernorTick s.governor nowMs nextWakeMs anyRunnable first second
    if closes s.governor nowMs then
      let readings := s.readings++(senseHeat s.governor.thermal first second).2
      ⟨g,[],readings,s.windows++[{
        foreground := s.governor.foreground
        hints := s.hints
        hint := effectiveDemand s.governor
        readings := readings
        nextWakeMs := nextWakeMs
        anyRunnable := anyRunnable
        before := s.governor.level
        after := g.level
        lightSleepMs := g.lightSleepMs }]⟩
    else { s with governor := g }

end TinyDeviceOs.PowerGovernor
