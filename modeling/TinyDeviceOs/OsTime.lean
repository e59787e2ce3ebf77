import Mathlib.Data.UInt
import TinyDeviceOs.LinkedList
import TinyDeviceOs.Runs

/-! The timers of `kernel/os_time.c`, `n` of them, in memory of their users. Time is
`g_time_offset+g_boot_time`; on a host the clock of the machine sets `g_boot_time` before every
call. -/
namespace TinyDeviceOs.OsTime

open LinkedList

/-- Callbacks are code addresses; `none` is null. -/
structure Timer (n : ℕ) where
  expireTime : UInt64
  callback : Option ℕ
  arg : ℕ
  periodic : Bool
  period : UInt64
  next : Option (Fin n)
  active : Bool
  deriving DecidableEq

structure Timers (n : ℕ) where
  (bootTime timeOffset : UInt64)
  timerList : Option (Fin n)
  timers : Fin n → Timer n

variable (s : Timers n)

def Timers.next (s : Timers n) (t : Fin n) : Option (Fin n) := (s.timers t).next
def Timers.active (s : Timers n) (t : Fin n) : Bool := (s.timers t).active
def Timers.expireTime (s : Timers n) (t : Fin n) : UInt64 := (s.timers t).expireTime

def Timers.modify (t : Fin n) (f : Timer n → Timer n) : Timers n :=
  { s with timers := Function.update s.timers t (f (s.timers t)) }

def Timers.write (current p : Option (Fin n)) : Timers n :=
  match current with
  | none => { s with timerList := p }
  | some t => s.modify t fun timer => { timer with next := p }

def timeNowUs : UInt64 := s.timeOffset+s.bootTime

def timeSetNowUs (nowUs : UInt64) : Timers n := { s with bootTime := nowUs }

def timeRtcSet (epochUs : UInt64) : Timers n :=
  { s with timeOffset := epochUs-s.bootTime }

/-- `none` is `-1`, here and below, and changes nothing. -/
def osTimerCreate (timer : Option (Fin n)) (delayUs : UInt64) (cb : Option ℕ)
    (arg : ℕ) (periodic : Bool) : Option (Timers n) :=
  match timer,cb with
  | some t,some cb => some (s.modify t fun _ => {
      expireTime := timeNowUs s+delayUs
      callback := some cb
      arg := arg
      periodic := periodic
      period := delayUs
      next := none
      active := false })
  | _,_ => none

def timerListInsert (t : Fin n) : Timers n :=
  let current := seek s.next s.timerList (fun x => s.expireTime t < s.expireTime x) n none
  let s := s.modify t fun timer => { timer with next := deref s.next s.timerList current }
  s.write current (some t)

def osTimerStart (timer : Option (Fin n)) : Option (Timers n) :=
  match timer with
  | none => none
  | some t =>
    if s.active t then none
    else some (timerListInsert (s.modify t fun timer => { timer with
      expireTime := timeNowUs s+if timer.periodic then timer.period else 0
      active := true }) t)

def osTimerStop (timer : Option (Fin n)) : Option (Timers n) :=
  match timer with
  | none => none
  | some t =>
    if s.active t = false then none
    else
      let current := seek s.next s.timerList (fun x => x = t) n none
      if deref s.next s.timerList current = none then none
      else some ((s.write current (s.next t)).modify t fun timer => { timer with
        next := none
        active := false })

def osTimerDelete (t : Fin n) : Timers n :=
  ((osTimerStop s (some t)).getD s).modify t fun timer => { timer with callback := none, arg := 0 }

/-- Up to the callback; `none` when the loop ends. -/
def processRound (now : UInt64) : Option (Timers n × Fin n) :=
  match s.timerList with
  | none => none
  | some t =>
    if s.expireTime t ≤ now then
      let s := { s with timerList := s.next t }
      let s := s.modify t fun timer => { timer with next := none }
      if (s.timers t).periodic then
        some (timerListInsert (s.modify t fun timer => { timer with
          expireTime := now+timer.period }) t,t)
      else some (s.modify t fun timer => { timer with active := false },t)
    else none

/-- With the timers that had their round in it. -/
structure Call (n : ℕ) where
  now : UInt64
  ran : List (Fin n)
  deriving DecidableEq

/-- A start without a round since, and the clock readings after it. -/
structure Wait where
  (since delay : UInt64)
  callback : Option ℕ
  arg : ℕ
  passed : List UInt64
  deriving DecidableEq

/-- The first round after a start, with its callback. -/
structure FirstRun where
  wait : Wait
  now : UInt64
  callback : Option ℕ
  arg : ℕ
  deriving DecidableEq

/-- The calls in progress stand innermost first. -/
structure System (n : ℕ) where
  timers : Timers n
  calls : List (Call n)
  waiting : Fin n → Option Wait
  firstRuns : List FirstRun

/-- `round` goes on after the callback of the round before. -/
inductive Op (n : ℕ)
  | setNowUs (nowUs : UInt64)
  | rtcSet (epochUs : UInt64)
  | create (timer : Option (Fin n)) (delayUs : UInt64) (cb : Option ℕ) (arg : ℕ) (periodic : Bool)
  | start (timer : Option (Fin n))
  | stop (timer : Option (Fin n))
  | delete (t : Fin n)
  | process
  | round

def boot (memory : Fin n → Timer n) : System n where
  timers := ⟨0,0,none,fun t => { memory t with active := false }⟩
  calls := []
  waiting := fun _ => none
  firstRuns := []

def Call.forget (t : Fin n) (c : Call n) : Call n := { c with ran := c.ran.filter (· ≠ t) }

variable (s : System n)

def System.started (t : Fin n) (timers : Timers n) : System n :=
  { s with
    timers := timers
    calls := s.calls.map (Call.forget t)
    waiting := Function.update s.waiting t (some {
      since := timeNowUs s.timers
      delay := (timers.timers t).period
      callback := (timers.timers t).callback
      arg := (timers.timers t).arg
      passed := [] }) }

def System.stopped (t : Fin n) (timers : Timers n) : System n :=
  { s with timers := timers, waiting := Function.update s.waiting t none }

def System.ran (s : System n) (t : Fin n) (timers : Timers n) (c : Call n) (calls : List (Call n)) :
    System n where
  timers := timers
  calls := { c with ran := t::c.ran }::calls
  waiting := Function.update s.waiting t none
  firstRuns := s.firstRuns++(s.waiting t).toList.map fun wait => {
    wait := wait
    now := c.now
    callback := (timers.timers t).callback
    arg := (timers.timers t).arg }

def System.returned (now : UInt64) (calls : List (Call n)) : System n :=
  { s with
    calls := calls
    waiting := fun t => (s.waiting t).map fun w => { w with passed := w.passed++[now] } }

def step : Op n → System n
  | .setNowUs nowUs => { s with timers := timeSetNowUs s.timers nowUs }
  | .rtcSet epochUs => { s with timers := timeRtcSet s.timers epochUs }
  | .create timer delayUs cb arg periodic =>
    { s with timers := (osTimerCreate s.timers timer delayUs cb arg periodic).getD s.timers }
  | .start none => s
  | .start (some t) => match osTimerStart s.timers (some t) with
    | none => s
    | some timers => s.started t timers
  | .stop none => s
  | .stop (some t) => match osTimerStop s.timers (some t) with
    | none => s
    | some timers => s.stopped t timers
  | .delete t => s.stopped t (osTimerDelete s.timers t)
  | .process => { s with calls := ⟨timeNowUs s.timers,[]⟩::s.calls }
  | .round => match s.calls with
    | [] => s
    | c::calls => match processRound s.timers c.now with
      | none => s.returned c.now calls
      | some (timers,t) => s.ran t timers c calls

end TinyDeviceOs.OsTime
