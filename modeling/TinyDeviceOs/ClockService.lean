import TinyDeviceOs.Runs
import Mathlib.Algebra.Ring.Int.Defs

/-! The wall clock of `kernel/os_clock.c`, on targets other than the ESP32. The time of the host
is `time(NULL)`; an adjustment of 32 bits is added to it. -/
namespace TinyDeviceOs.OsClock

def osClockNow (host : Int64) (adjust : Int32) : Int64 := host+adjust.toInt64

/-- The adjustment that is stored; the call returns 0, like the next one. -/
def osClockSet (host unixTime : Int64) : Int32 := (unixTime-host).toInt32

def osClockShift (adjust delta : Int32) : Int32 := adjust+delta

def shifted (ds : List Int32) : Int64 := (ds.map Int32.toInt64).sum

theorem foldl_shift : ds.foldl osClockShift x.toInt32 = (x+shifted ds).toInt32 := by
  induction ds generalizing x with
  | nil => simp [shifted]
  | cons d ds ih =>
    have hstep : osClockShift x.toInt32 d = (x+d.toInt64).toInt32 := by
      rw [osClockShift,Int64.toInt32_add,Int32.toInt32_toInt64]
    rw [List.foldl_cons,hstep,ih,Int64.add_assoc]
    rfl

theorem toInt32_toInt64_iff (x : Int64) :
    x.toInt32.toInt64 = x ↔ -2^31 ≤ x.toInt ∧ x.toInt < 2^31 := by
  rw [←Int64.toInt_inj,Int32.toInt_toInt64,Int64.toInt_toInt32,Int.bmod_def]
  split_ifs <;> omega

/-- The clock is exact, in the arithmetic of `time_t`, exactly as long as its distance from the
host's clock fits into 32 bits. -/
theorem clock_exact_iff (host t : Int64) (ds : List Int32) (host' : Int64) :
    osClockNow host' (ds.foldl osClockShift (osClockSet host t)) = t+shifted ds+(host'-host) ↔
      -2^31 ≤ (t-host+shifted ds).toInt ∧ (t-host+shifted ds).toInt < 2^31 := by
  have hsum : t+shifted ds+(host'-host) = host'+(t-host+shifted ds) := by grind
  rw [osClockSet,foldl_shift,osClockNow,hsum,Int64.add_right_inj,toInt32_toInt64_iff]

/-- A clock that is set to 2038 on a host in 1970 shows 1901. -/
theorem clock_far_set : osClockNow 0 (osClockSet 0 2147483648) = -2147483648 := by decide

end TinyDeviceOs.OsClock

namespace TinyDeviceOs.ClockService

open OsClock Runs

def osClockSetAfter : Int64 := 1600000000

/-- The calls on the file succeed, `vfs_open` fails, `vfs_write` fails after the file was
truncated, or the data are lost behind it. -/
inductive Write
  | stored
  | refused
  | failed (left : Option Int64)
  | lost (left : Option Int64)

/-- `g_saved`, the file and the adjustment of the clock. -/
structure Service where
  saved : Int64
  file : Option Int64
  adjust : Int32

def readSaved (file : Option Int64) (read : Bool) : Int64 :=
  (file.filter fun t => read ∧ osClockSetAfter < t).getD 0

section

variable (s : Service) (host : Int64)

def writeSaved (unixTime : Int64) : Write → Service × Bool
  | .stored => ({ s with saved := unixTime, file := some unixTime },true)
  | .refused => (s,false)
  | .failed left => ({ s with file := left },false)
  | .lost left => ({ s with saved := unixTime, file := left },true)

variable (rtcNow compiledUnix : Int64)

def osClockStamp : Int64 :=
  if osClockSetAfter < rtcNow then 0
  else if osClockSetAfter < compiledUnix then compiledUnix
  else 0

def clockServiceStart (read : Bool) (w : Write) : Service × Bool :=
  let saved := readSaved s.file read
  let chosen :=
    if osClockSetAfter < saved then saved
    else if osClockSetAfter < rtcNow then rtcNow
    else if osClockSetAfter < compiledUnix then compiledUnix
    else 0
  let s := if osClockSetAfter < saved then { s with saved := saved } else s
  if chosen = 0 then (s,false)
  else
    let s :=
      if saved = 0 then
        let (s,ok) := writeSaved s chosen w
        if ok then s else { s with saved := chosen }
      else s
    if osClockStamp rtcNow chosen = 0 then (s,true)
    else ({ s with adjust := osClockSet host chosen },true)

def clockServiceShift (delta : Int32) (w : Write) : Service × Bool :=
  let adjust := osClockShift s.adjust delta
  writeSaved { s with adjust := adjust } (osClockNow host adjust) w

def clockServiceSet (unixTime : Int64) (w : Write) : Service × Bool :=
  writeSaved { s with adjust := osClockSet host unixTime } unixTime w

def clockServiceCheckpoint (w : Write) : Service × Bool :=
  let now := osClockNow host s.adjust
  if s.saved ≠ 0 ∧ s.saved ≤ now ∧ now.toInt-s.saved.toInt < 60 then (s,true)
  else writeSaved s now w

end

/-- At the time `host` of the machine. -/
inductive Op
  | start (host rtcNow compiledUnix : Int64) (read : Bool) (w : Write)
  | shift (host : Int64) (delta : Int32) (w : Write)
  | set (host unixTime : Int64) (w : Write)
  | checkpoint (host : Int64) (w : Write)

section

variable (s : Service)

def step : Op → Service
  | .start host rtcNow compiledUnix read w =>
    (clockServiceStart s host rtcNow compiledUnix read w).1
  | .shift host delta w => (clockServiceShift s host delta w).1
  | .set host unixTime w => (clockServiceSet s host unixTime w).1
  | .checkpoint host w => (clockServiceCheckpoint s host w).1

/-- After a success, the file is less than a minute behind the clock. -/
def Honest : Op → Prop
  | .checkpoint host w => (clockServiceCheckpoint s host w).2 = true →
    ∃ t, (clockServiceCheckpoint s host w).1.file = some t ∧
      0 ≤ (osClockNow host s.adjust).toInt-t.toInt ∧
      (osClockNow host s.adjust).toInt-t.toInt < 60
  | _ => True

/-- A write leaves what is cached: it is stored or the file is not opened. The first one of a
start is stored. -/
def Reliable : Op → Prop
  | .start _ _ _ read w => readSaved s.file read = 0 → w = .stored
  | .shift _ _ w | .set _ _ w | .checkpoint _ w => w = .stored ∨ w = .refused

def Kept : Prop := s.saved = 0 ∨ s.file = some s.saved

end

theorem Kept.writeSaved (h : Kept s) (hw : w = .stored ∨ w = .refused) :
    Kept (writeSaved s t w).1 := by
  rcases hw with rfl | rfl
  · exact .inr rfl
  · exact h

theorem readSaved_file {file : Option Int64} {read : Bool} (h : readSaved file read ≠ 0) :
    file = some (readSaved file read) := by
  cases file with
  | none => exact absurd rfl h
  | some t =>
    rw [readSaved,Option.filter_some] at h ⊢
    split_ifs at h ⊢
    · rfl
    · exact absurd rfl h

theorem Kept.start (h : Kept s) {rtcNow compiledUnix : Int64} {read : Bool}
    (hw : readSaved s.file read = 0 → w = .stored) :
    Kept (clockServiceStart s host rtcNow compiledUnix read w).1 := by
  unfold clockServiceStart
  dsimp only
  generalize hsaved : readSaved s.file read = saved at hw
  have hs : Kept (if osClockSetAfter < saved then { s with saved := saved } else s) := by
    split_ifs with hafter
    · refine .inr ?_
      subst hsaved
      exact readSaved_file fun h0 => absurd (h0▸hafter) (by decide)
    · exact h
  generalize (if osClockSetAfter < saved then { s with saved := saved } else s) = s' at hs
  by_cases hzero : saved = 0
  · simp only [hw hzero,if_pos hzero,ClockService.writeSaved,if_true]
    split_ifs <;> first | exact hs | exact .inr rfl
  · simp only [if_neg hzero]
    split_ifs <;> exact hs

theorem Kept.step (h : Kept s) (op : Op) (hop : Reliable s op) : Kept (step s op) := by
  cases op with
  | start host rtcNow compiledUnix read w => exact h.start hop
  | checkpoint host w =>
    change Kept (clockServiceCheckpoint s host w).1
    rw [clockServiceCheckpoint]
    split_ifs
    · exact h
    · exact h.writeSaved hop
  | _ => exact Kept.writeSaved (s:={ s with adjust := _ }) h hop

theorem Kept.honest (h : Kept s) (hop : Reliable s op) : Honest s op := by
  cases op with
  | checkpoint host w =>
    rw [Honest,clockServiceCheckpoint]
    split_ifs with hcached
    · intro _
      exact ⟨s.saved,h.resolve_left hcached.1,
        Int.sub_nonneg.mpr (Int64.le_iff_toInt_le.mp hcached.2.1),hcached.2.2⟩
    · rcases hop with rfl | rfl
      · exact fun _ => ⟨_,rfl,by simp⟩
      · intro hfalse
        cases hfalse
  | start host rtcNow compiledUnix read w => trivial
  | shift host delta w => trivial
  | set host unixTime w => trivial

end TinyDeviceOs.ClockService
