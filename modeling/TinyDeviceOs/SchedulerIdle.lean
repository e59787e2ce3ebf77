import TinyDeviceOs.Runs
import TinyDeviceOs.SchedulerFrame

/-! Tickless idle (kernel/scheduler.c): the functions that move the clock themselves, and runs
of the whole scheduler with them. -/
namespace TinyDeviceOs.Scheduler

open Runs

inductive PowerMode
  | active | idle | lightSleep | deepSleep
  deriving DecidableEq

/-- For tickless idle, besides `next_wake_tick`. -/
structure Power where
  ticklessIdleEnabled : Bool
  idleTickCount : UInt32
  powerMode : PowerMode
  deepSleepMinTicks : UInt32

structure Machine extends World where
  power : Power

def Sched.setTick (s : Sched) (tick : UInt32) : Sched := { s with tickCount := tick }

namespace Machine

variable (m : Machine)

def setSched (s : Sched) : Machine := { m with sched := s }

def setTick (tick : UInt32) : Machine := m.setSched (m.sched.setTick tick)

def setMode (mode : PowerMode) : Machine := { m with power := { m.power with powerMode := mode } }

def countIdle : Machine :=
  { m with power := { m.power with idleTickCount := m.power.idleTickCount+1 } }

def setTickless (enable : Bool) : Machine :=
  { m with power := { m.power with ticklessIdleEnabled := enable } }

def setMinTicks (ticks : UInt32) : Machine :=
  { m with power := { m.power with deepSleepMinTicks := ticks } }

end Machine

def noWake : UInt32 := 0xFFFFFFFF

section

variable (m : Machine)

def schedulerEnterIdle : Machine :=
  let m₁ := (m.setMode .idle).countIdle
  let nextWake := m.sched.nextWakeTick
  let now := m.sched.tickCount
  let sleepTicks := if nextWake = noWake then 0 else nextWake-now
  if 0 < sleepTicks then ((m₁.setMode .lightSleep).setTick (now+sleepTicks)).setMode .active
  else (m₁.setMode .deepSleep).setSched (taskYield m.sched)

def schedulerExitIdle : Machine := m.setMode .active

def schedulerTicklessIdle : Machine :=
  if m.power.ticklessIdleEnabled = false then m
  else
    let nextWake := m.sched.nextWakeTick
    let now := m.sched.tickCount
    if nextWake = noWake then m.setMode .deepSleep
    else
      let sleepTicks := nextWake-now
      if sleepTicks = 0 then m
      else
        let m₁ := m.setMode .lightSleep
        let m₂ := if m.power.deepSleepMinTicks ≤ sleepTicks then m₁.setTick nextWake
          else m₁.setTick nextWake
        m₂.setMode .active

/-- No result is `-1`. -/
def schedulerEnterDeepSleep (timeoutTicks : UInt32) : Option Machine :=
  if m.power.ticklessIdleEnabled = false then none
  else
    let m₁ := m.setMode .deepSleep
    let m₂ := if 0 < timeoutTicks then m₁.setTick (m.sched.tickCount+timeoutTicks) else m₁
    some (m₂.setTickless false)

inductive Op
  | call (c : Call)
  | enterIdle
  | exitIdle
  | ticklessIdle
  | deepSleep (timeoutTicks : UInt32)
  | enableTickless (enable : Bool)
  | setDeepSleepMin (ticks : UInt32)

def act : Op → Machine
  | .call c => { m with toWorld := perform m.toWorld c }
  | .enterIdle => schedulerEnterIdle m
  | .exitIdle => schedulerExitIdle m
  | .ticklessIdle => schedulerTicklessIdle m
  | .deepSleep timeoutTicks => (schedulerEnterDeepSleep m timeoutTicks).getD m
  | .enableTickless enable => m.setTickless enable
  | .setDeepSleepMin ticks => m.setMinTicks ticks

def Permitted : Op → Prop
  | .call c => Legal m.toWorld c
  | _ => True

instance (m : Machine) (op : Op) : Decidable (Permitted m op) := by
  cases op <;> unfold Permitted <;> infer_instance

def powerOn (s : Sched) : Machine := ⟨boot s,⟨true,0,.active,10000⟩⟩

/-- From a successful `scheduler_init`. -/
def Reachable : Prop :=
  ∃ stackOk bootOk s ops, schedulerInit stackOk bootOk = some s ∧
    Each act Permitted (powerOn s) ops ∧ m = after act (powerOn s) ops

end

section

variable (m : Machine)

theorem alike_setTick (s : Sched) (tick : UInt32) : Alike s (s.setTick tick) :=
  ⟨rfl,rfl,rfl,rfl,rfl,rfl,rfl,rfl⟩

theorem schedulerEnterIdle_world : (schedulerEnterIdle m).toWorld = m.set
    (if m.sched.nextWakeTick = noWake ∨ m.sched.nextWakeTick = m.sched.tickCount then
      taskYield m.sched
    else m.sched.setTick m.sched.nextWakeTick) := by
  rw [schedulerEnterIdle]
  by_cases hw : m.sched.nextWakeTick = noWake
  · simp [hw,Machine.setSched,World.set,Machine.setMode,Machine.countIdle]
  · by_cases hn : m.sched.nextWakeTick = m.sched.tickCount
    · simp [hn,Machine.setSched,World.set,Machine.setMode,Machine.countIdle]
    · have hpos : 0 < m.sched.nextWakeTick-m.sched.tickCount := by grind
      have hsum : m.sched.tickCount+(m.sched.nextWakeTick-m.sched.tickCount) =
          m.sched.nextWakeTick := by grind
      simp only [hw,hn,if_false,or_self,hpos,if_true,hsum]
      rfl

theorem schedulerTicklessIdle_world : (schedulerTicklessIdle m).toWorld = m.set
    (if m.power.ticklessIdleEnabled = false ∨ m.sched.nextWakeTick = noWake then m.sched
    else m.sched.setTick m.sched.nextWakeTick) := by
  rw [schedulerTicklessIdle]
  cases he : m.power.ticklessIdleEnabled with
  | false => simp [World.set]
  | true =>
    by_cases hw : m.sched.nextWakeTick = noWake
    · simp [hw,Machine.setMode,World.set]
    · simp only [hw,reduceCtorEq,or_self,if_false,ite_self]
      split_ifs with hz
      · have hsame : m.sched.nextWakeTick = m.sched.tickCount := by grind
        rw [hsame]
        rfl
      · rfl

theorem schedulerEnterDeepSleep_world (timeoutTicks : UInt32) :
    ((schedulerEnterDeepSleep m timeoutTicks).getD m).toWorld = m.set
      (if m.power.ticklessIdleEnabled = false then m.sched
      else m.sched.setTick (m.sched.tickCount+timeoutTicks)) := by
  rw [schedulerEnterDeepSleep]
  cases he : m.power.ticklessIdleEnabled with
  | false => simp [World.set]
  | true =>
    simp only [reduceCtorEq,if_false,Option.getD_some]
    split_ifs with hz
    · rfl
    · have hzero : m.sched.tickCount+timeoutTicks = m.sched.tickCount := by grind
      rw [hzero]
      rfl

/-- Besides the calls there are only a yield and a new tick count. -/
theorem act_cases (op : Op) : (∃ c, op = .call c) ∨
    (act m op).toWorld = m.set (taskYield m.sched) ∨
      ∃ tick, (act m op).toWorld = m.set (m.sched.setTick tick) := by
  have hstay : m.toWorld = m.set (m.sched.setTick m.sched.tickCount) := rfl
  cases op with
  | call c => exact .inl ⟨c,rfl⟩
  | enterIdle =>
    rw [act,schedulerEnterIdle_world]
    split_ifs
    · exact .inr (.inl rfl)
    · exact .inr (.inr ⟨_,rfl⟩)
  | ticklessIdle =>
    rw [act,schedulerTicklessIdle_world]
    split_ifs
    · exact .inr (.inr ⟨_,hstay⟩)
    · exact .inr (.inr ⟨_,rfl⟩)
  | deepSleep timeoutTicks =>
    rw [act,schedulerEnterDeepSleep_world]
    split_ifs
    · exact .inr (.inr ⟨_,hstay⟩)
    · exact .inr (.inr ⟨_,rfl⟩)
  | _ => exact .inr (.inr ⟨_,hstay⟩)

end

section

theorem act_steady (h : Steady m.sched m.live fun _ => True) (hp : Permitted m op) :
    Steady (act m op).sched (act m op).live fun _ => True := by
  rcases act_cases m op with ⟨c,rfl⟩ | heq | ⟨tick,heq⟩
  · exact perform_steady h hp (.inr fun _ => trivial)
  · rw [heq]
    exact taskYield_steady h
  · rw [heq]
    exact (alike_setTick m.sched tick).steady h

theorem act_lastSwitched (h : Steady m.sched m.live lost) (hn : m.sched.lastSwitched = none) :
    (act m op).sched.lastSwitched = none := by
  rcases act_cases m op with ⟨c,rfl⟩ | heq | ⟨tick,heq⟩
  · cases ht : tickOf m.sched c with
    | none => exact (perform_touches h ht).1.lastSwitched hn
    | some s₁ =>
      obtain ⟨u,rfl,htouch⟩ := perform_ticks h ht
      exact htouch.lastSwitched
        ((schedulerTick_spec ((alike_setSleepUntil m.sched u).steady h)).lastSwitched hn)
  · rw [heq]
    exact (touches_taskYield m.sched).lastSwitched hn
  · rw [heq]
    exact hn

theorem schedulerInit_lastSwitched (h : schedulerInit stackOk bootOk = some s) : s.lastSwitched
    = none := by
  have hall : ∀ a b, ∀ s ∈ schedulerInit a b, s.lastSwitched = none := by decide +kernel
  exact hall stackOk bootOk s h

theorem Reachable.spec (h : Reachable m) :
    Steady m.sched m.live (fun _ => True) ∧ m.sched.lastSwitched = none := by
  obtain ⟨stackOk,bootOk,s,ops,hs,hp,rfl⟩ := h
  refine invariant (I:=fun m => Steady m.sched m.live (fun _ => True) ∧
    m.sched.lastSwitched = none) (fun m op hm hp => ?_) ⟨?_,?_⟩ hp
  · exact ⟨act_steady hm.1 hp,act_lastSwitched hm.1 hm.2⟩
  · have hsound := schedulerInit_sound hs
    exact ⟨hsound.toSettled,hsound.current,fun t ht hr => .inr trivial,hsound.starting⟩
  · exact schedulerInit_lastSwitched hs

end

end TinyDeviceOs.Scheduler
