import TinyDeviceOs.SchedulerIdle
import Mathlib.Tactic

/-! How long `task_sleep` sleeps, whatever the other tasks do. -/
namespace TinyDeviceOs.Scheduler

open Runs

variable {m : Machine} {op : Op} {ops : List Op} {s₁ : Sched} {lost : TaskId → Prop} {c : TaskId}
  {p : Priority} {wakeTime : UInt32}

section

variable (m)

def tickBy : Op → Option Sched
  | .call c => tickOf m.sched c
  | _ => none

def ticks (op : Op) : ℕ := if (tickBy m op).isSome then 1 else 0

def Still : Op → Prop
  | .enterIdle => m.sched.nextWakeTick = noWake ∨ m.sched.nextWakeTick = m.sched.tickCount
  | .ticklessIdle => m.power.ticklessIdleEnabled = false ∨ m.sched.nextWakeTick = noWake ∨
      m.sched.nextWakeTick = m.sched.tickCount
  | .deepSleep timeoutTicks => m.power.ticklessIdleEnabled = false ∨ timeoutTicks = 0
  | _ => True

def Spares (c : TaskId) (op : Op) : Prop :=
  op ≠ .call (.suspend (some c)) ∧ op ≠ .call (.delete (some c))

theorem perform_live (hn : ¬Names w.sched call y) : (perform w call).live y = w.live y := by
  cases call with
  | create priority stackOk bootOk =>
    rw [perform,createTask,taskCreate]
    rw [Names] at hn
    cases hf : w.sched.heads .free with
    | none => rfl
    | some t =>
      have hne : t ≠ y := fun e => hn (hf.trans (congrArg some e))
      simp only
      split_ifs
      · exact if_neg hne
      · rfl
      · rfl
  | delete o =>
    cases o with
    | none => rfl
    | some t =>
      rw [perform,deleteTask]
      cases taskDelete w.sched (some t) with
      | none => rfl
      | some s => exact if_neg fun e => hn (congrArg some e)
  | mainLoop =>
    rw [perform]
    split_ifs <;> rfl
  | _ => rfl

def NamedBy : Op → TaskId → Prop
  | .call c,y => Names m.sched c y
  | _,_ => False

/-- No task makes `scheduler_step` switch. -/
def StepsFromMain : Op → Prop
  | .call c => FromMain m.toWorld c
  | _ => True

end

section

variable (h : Steady m.sched m.live lost)
include h

theorem act_touches (hs : Still m op) (hn : tickBy m op = none) : Touches (fun y => Busy m.sched
    y ∨ NamedBy m op y) (m.sched.setSleepUntil (act m op).sched.sleepUntil) (act m op).sched ∧
    (∀ y, ¬NamedBy m op y → (act m op).live y = m.live y) ∧ (m.sched.current ≠ m.sched.main →
    StepsFromMain m op → (act m op).sched.sleepUntil = m.sched.sleepUntil) := by
  cases op with
  | call c =>
    obtain ⟨ht,hsleep⟩ := perform_touches h hn
    exact ⟨ht,fun y hy => perform_live hy,hsleep⟩
  | enterIdle =>
    rw [Still] at hs
    rw [act,schedulerEnterIdle_world,if_pos hs]
    have ht := touches_taskYield m.sched
    refine ⟨?_,fun _ _ => rfl,fun _ _ => ht.sleepUntil⟩
    rw [World.set,ht.sleepUntil]
    exact ht.mono fun y => .inl
  | ticklessIdle =>
    have hsame : (if m.power.ticklessIdleEnabled = false ∨ m.sched.nextWakeTick = noWake then m.sched
        else m.sched.setTick m.sched.nextWakeTick) = m.sched := by
      rcases hs with hs | hs | hs
      · simp [hs]
      · simp [hs]
      · rw [hs]
        exact ite_self _
    rw [act,schedulerTicklessIdle_world,hsame]
    exact ⟨Touches.refl _ _,fun _ _ => rfl,fun _ _ => rfl⟩
  | deepSleep timeoutTicks =>
    have hsame : (if m.power.ticklessIdleEnabled = false then m.sched
        else m.sched.setTick (m.sched.tickCount+timeoutTicks)) = m.sched := by
      rcases hs with hs | rfl
      · simp [hs]
      · rw [UInt32.add_zero]
        exact ite_self _
    rw [act,schedulerEnterDeepSleep_world,hsame]
    exact ⟨Touches.refl _ _,fun _ _ => rfl,fun _ _ => rfl⟩
  | _ => exact ⟨Touches.refl _ _,fun _ _ => rfl,fun _ _ => rfl⟩

theorem act_ticks (ht : tickBy m op = some s₁) : Steady s₁ m.live lost ∧ (∃ u, Ticked m.live
    (m.sched.setSleepUntil u) s₁) ∧ Touches (Busy s₁) (s₁.setSleepUntil (act m
    op).sched.sleepUntil) (act m op).sched ∧ ∀ y, (act m op).live y = m.live y := by
  cases op with
  | call c =>
    obtain ⟨u,rfl,htouch⟩ := perform_ticks h ht
    have hs := (alike_setSleepUntil m.sched u).steady h
    refine ⟨schedulerTick_steady hs,⟨u,schedulerTick_spec hs⟩,htouch,fun y => perform_live ?_⟩
    intro hn
    cases c <;> simp [tickBy,tickOf,Names] at ht hn
  | _ => simp [tickBy] at ht

theorem act_tickCount (hs : Still m op) : (act m op).sched.tickCount =
    m.sched.tickCount+UInt32.ofNat (ticks m op) := by
  rw [ticks]
  cases ht : tickBy m op with
  | none =>
    have hcount : (act m op).sched.tickCount = m.sched.tickCount :=
      (act_touches h hs ht).1.tickCount
    simp [hcount]
  | some s₁ =>
    obtain ⟨-,⟨u,htick⟩,htouch,-⟩ := act_ticks h ht
    have hcount : (act m op).sched.tickCount = m.sched.tickCount+1 :=
      htouch.tickCount.trans htick.tickCount
    simp [hcount]

end

/-- The task sleeps until the clock shows `wakeTime`. -/
structure Asleep (c : TaskId) (p : Priority) (wakeTime : UInt32) (m : Machine) : Prop where
  home : home m.sched m.live c = some .blocked
  data : m.sched.data c = (.blocked,p,wakeTime)

variable {s : Sched} {live : TaskId → Bool}

theorem not_busy (h : Steady s live lost)
    (hb : Scheduler.home s live c = some .blocked) : ¬Busy s c := by
  obtain ⟨hm,hl,hs⟩ := home_blocked hb
  rintro (hc | hc | hc)
  · exact hm hc.symm
  · exact h.ne_current hm (by simp [hs]) hc.symm
  · obtain ⟨q,hq⟩ := nextToRun_head hc
    have hr := h.head_home hq
    simp [hb] at hr

theorem Asleep.of_data (h : Asleep c p wakeTime m) (hm : m'.sched.main = m.sched.main) (hd :
    m'.sched.data c = m.sched.data c) (hl : m'.live c = m.live c) : Asleep c p wakeTime m' :=
  ⟨(home_congr hm (congrArg (·.1) hd) (congrArg (·.2.1) hd) hl).trans h.home,hd.trans h.data⟩

section

variable (h : Steady m.sched m.live lost)
include h

theorem act_asleep (ha : Asleep c p wakeTime m) (hs : Still m op) (hc : Spares c op) (hn :
    tickBy m op = none) : Asleep c p wakeTime (act m op) := by
  obtain ⟨ht,hl,-⟩ := act_touches h hs hn
  have hnamed : ¬NamedBy m op c := by
    intro hnamed
    cases op with
    | call call =>
      cases call with
      | create priority stackOk bootOk =>
        have hf := h.threads.head_place hnamed
        simp [ha.home] at hf
      | delete o => exact hc.2 (by rw [hnamed])
      | suspend o => exact hc.1 (by rw [hnamed])
      | resume o =>
        have hb := (home_blocked ha.home).2.2
        simp [hnamed.2] at hb
      | _ => exact hnamed
    | _ => exact hnamed
  exact ha.of_data ht.main (ht.data c fun hb => hb.elim (not_busy h ha.home) hnamed) (hl c hnamed)

theorem tick_asleep (ha : Asleep c p wakeTime m) (ht : tickBy m op = some s₁) : (wakeTime ≤
    m.sched.tickCount+1 → c ∈ queue s₁ (.ready (s₁.priority c))) ∧ (¬wakeTime ≤
    m.sched.tickCount+1 → c ∈ queue s₁ .blocked ∧ Asleep c p wakeTime (act m op)) := by
  obtain ⟨hs,⟨u,htick⟩,htouch,hl⟩ := act_ticks h ht
  obtain ⟨hm,hlive,-⟩ := home_blocked ha.home
  have hw : (m.sched.tasks c).wakeTime = wakeTime := congrArg (·.2.2) ha.data
  have hhome : home (m.sched.setSleepUntil u) m.live c = some .blocked := ha.home
  have hdata := htick.data c
  have hmem (i : ListId) := (hs.threads.queue_spec i).2 c
  have hm₁ : some c ≠ s₁.main := by
    rw [htick.main]
    exact hm
  constructor
  · intro hdue
    rw [if_pos ⟨hhome,by rw [←hw] at hdue; exact hdue⟩] at hdata
    have hstate : s₁.state c = .ready := congrArg (·.1) hdata
    rw [hmem,home_live hm₁ hlive,hstate]
  · intro hdue
    rw [if_neg fun hd => hdue (by rw [←hw]; exact hd.2)] at hdata
    have hb : home s₁ m.live c = some .blocked :=
      (home_congr htick.main (congrArg (·.1) hdata) (congrArg (·.2.1) hdata) rfl).trans ha.home
    refine ⟨(hmem .blocked).mpr hb,ha.of_data (htouch.main.trans htick.main) ?_ (hl c)⟩
    exact (htouch.data c (not_busy hs hb)).trans hdata

theorem taskSleep_asleep (hc : m.sched.current = some c) (hm : some c ≠ m.sched.main) : Asleep c
    (m.sched.priority c) (m.sched.tickCount+n) (act m (.call (.sleep n))) ∧ (act m (.call
    (.sleep n))).sched.tickCount = m.sched.tickCount := by
  have ht := touches_taskSleep hc hm n
  have hlive := (h.current_live hc hm).1
  have hdata : (taskSleep m.sched n).data c =
      (.blocked,m.sched.priority c,m.sched.tickCount+n) := by
    rw [taskSleep,hc]
    simp only [if_neg hm]
    set s₁ := m.sched.modify c fun b => { b with
      sleepTicks := n
      wakeTime := m.sched.tickCount+n
      state := .blocked } with hs₁
    have hadd := (touches_taskListAdd (p:=fun _ => False) s₁ c .blocked).trans
      (touches_setContext _ c .sleep)
    have hmain : some c ≠ ((taskListAdd s₁ .blocked c).setContext c .sleep).main := by
      rw [hadd.main]
      exact hm
    rw [(touches_switchToMain _).data c fun e => hmain e.symm,hadd.data c id,Sched.data,
      Sched.state,Sched.priority,hs₁,modify_tasks,if_pos rfl]
    rfl
  refine ⟨⟨?_,hdata⟩,ht.tickCount⟩
  have hmain : some c ≠ (taskSleep m.sched n).main := ht.main▸hm
  have hstate : (taskSleep m.sched n).state c = .blocked := congrArg (·.1) hdata
  exact (home_live hmain hlive).trans (by rw [hstate])

end

/-- What the others may do while the task sleeps. -/
def Undisturbed (c : TaskId) (m : Machine) (op : Op) : Prop :=
  Permitted m op ∧ Spares c op ∧ Still m op

/-- Blocked after each of the next `n-1` ticks and ready after the `n`-th. -/
def SleepsExactly (c : TaskId) (n : ℕ) (m : Machine) : Prop :=
  ∀ ops op s₁, Each act (Undisturbed c) m (ops++[op]) → tickBy (after act m ops) op = some s₁ →
    (total act ticks m ops+1 < n → c ∈ queue s₁ .blocked) ∧
      (total act ticks m ops+1 = n → c ∈ queue s₁ (.ready (s₁.priority c)))

/-- The wake time wraps only together with the clock. -/
def Punctual (t n : UInt32) : Prop := t.toNat+n.toNat < 2^32 ∨ t.toNat = 2^32-1
  deriving Decidable

theorem due_iff (h : Punctual t n) (hk : 0 < k) (hn : k ≤ n.toNat) : t+n ≤ t+UInt32.ofNat k ↔ k
    = n.toNat := by
  have ht := t.toNat_lt
  have hn' := n.toNat_lt
  rw [UInt32.le_iff_toNat_le,UInt32.toNat_add,UInt32.toNat_add,UInt32.toNat_ofNat']
  rcases h with h | h <;> omega

theorem run_asleep (h : Steady m.sched m.live fun _ => True) (ha : Asleep c p (t+n) m) (ht :
    m.sched.tickCount = t+UInt32.ofNat k) (hp : Punctual t n) (hu : Each act (Undisturbed c) m
    ops) (hk : k+total act ticks m ops < n.toNat) : Steady (after act m ops).sched (after act m
    ops).live (fun _ => True) ∧ Asleep c p (t+n) (after act m ops) ∧ (after act m
    ops).sched.tickCount = t+UInt32.ofNat (k+total act ticks m ops) := by
  induction ops generalizing m k with
  | nil => exact ⟨h,ha,ht⟩
  | cons op ops ih =>
    obtain ⟨⟨hperm,hspare,hstill⟩,hu⟩ := hu
    have hcount := act_tickCount h hstill
    rw [total,←add_assoc] at hk ⊢
    have hsum : (act m op).sched.tickCount = t+UInt32.ofNat (k+ticks m op) := by
      rw [hcount,ht,UInt32.ofNat_add,UInt32.add_assoc]
    refine ih (act_steady h hperm) ?_ hsum hu hk
    rw [ticks] at hk
    cases hn : tickBy m op with
    | none => exact act_asleep h ha hstill hspare hn
    | some s₁ =>
      rw [hn] at hk
      simp only [Option.isSome_some,if_true] at hk
      refine ((tick_asleep h ha hn).2 fun hdue => ?_).2
      rw [ht,UInt32.add_assoc,←UInt32.ofNat_one,←UInt32.ofNat_add] at hdue
      have := (due_iff hp (Nat.succ_pos k) (by omega)).mp hdue
      omega

theorem sleepsExactly_iff (h : Steady m.sched m.live fun _ => True) (hc : m.sched.current = some
    c) (hm : some c ≠ m.sched.main) : SleepsExactly c n.toNat (act m (.call (.sleep n))) ↔
    Punctual m.sched.tickCount n := by
  obtain ⟨ha,ht⟩ := taskSleep_asleep h hc hm
  have hs : Steady (act m (.call (.sleep n))).sched (act m (.call (.sleep n))).live fun _ => True :=
    act_steady h trivial
  constructor
  · intro hex
    by_contra hp
    rw [Punctual] at hp
    have hlt := m.sched.tickCount.toNat_lt
    have hlt' := n.toNat_lt
    obtain ⟨hblocked,-⟩ := hex [] (.call .tick) _ ⟨⟨trivial,⟨by simp,by simp⟩,trivial⟩,trivial⟩ rfl
    have htick : tickBy (act m (.call (.sleep n))) (.call .tick) = some _ := rfl
    have hready := (tick_asleep hs ha htick).1 (by
      rw [ht,UInt32.le_iff_toNat_le,UInt32.toNat_add,UInt32.toNat_add,UInt32.toNat_one]
      omega)
    have hb := hblocked (by simp only [total]; omega)
    have hth := (schedulerTick_steady hs).threads
    have hb' := ((hth.queue_spec _).2 c).mp hb
    rw [((hth.queue_spec _).2 c).mp hready] at hb'
    simp at hb'
  · intro hp ops op s₁ hu htick
    obtain ⟨hu,-⟩ := each_append.mp hu
    have hrun (hk : total act ticks (act m (.call (.sleep n))) ops < n.toNat) :=
      run_asleep (k:=0) hs ha (by simp [ht]) hp hu (by omega)
    constructor
    · intro hk
      obtain ⟨hs',ha',ht'⟩ := hrun (by omega)
      refine ((tick_asleep hs' ha' htick).2 fun hdue => ?_).1
      rw [ht',UInt32.add_assoc,←UInt32.ofNat_one,←UInt32.ofNat_add,zero_add] at hdue
      have := (due_iff hp (Nat.succ_pos _) (by omega)).mp hdue
      omega
    · intro hk
      obtain ⟨hs',ha',ht'⟩ := hrun (by omega)
      refine (tick_asleep hs' ha' htick).1 ?_
      rw [ht',UInt32.add_assoc,←UInt32.ofNat_one,←UInt32.ofNat_add,zero_add]
      exact (due_iff hp (Nat.succ_pos _) (by omega)).mpr hk

section

/-- Main goes on with its sleep in control, and nobody else ticks. -/
def During (m : Machine) (op : Op) : Prop :=
  Permitted m op ∧ Still m op ∧ StepsFromMain m op ∧ op ≠ .call .tick ∧
    m.sched.sleepUntil ≠ none ∧ (m.sched.current = m.sched.main → op = .call .mainLoop)

/-- The ticks of a run that main's `task_sleep` begins. -/
def sleepTicks (n : UInt32) (m : Machine) (ops : List Op) : ℕ :=
  ticks m (.call (.sleep n))+total act ticks (act m (.call (.sleep n))) ops

/-- Main ticks in control before the `n`-th tick, and ends after it. -/
def MainSleepsExactly (n : UInt32) (m : Machine) : Prop :=
  ∀ ops, Each act During (act m (.call (.sleep n))) ops →
    let m' := after act (act m (.call (.sleep n))) ops
    let k := sleepTicks n m ops
    (m'.sched.sleepUntil = none → k = n.toNat) ∧
      (m'.sched.sleepUntil ≠ none → k ≤ n.toNat ∧ (m'.sched.current = m'.sched.main →
        ((tickBy m' (.call .mainLoop)).isSome ↔ k < n.toNat)))

/-- One turn of main's loop. -/
theorem sleepTurn_spec (h : Steady s live lost) (hc : s.current = s.main) (hu : s.sleepUntil =
    some bound) : if s.tickCount < bound then loopTick s = some (schedulerTick s) ∧ (sleepTurn
    s).sleepUntil = some bound ∧ (sleepTurn s).tickCount = s.tickCount+1 else loopTick s = none
    ∧ (sleepTurn s).sleepUntil = none := by
  have hloop : loopTick s = if s.tickCount < bound then some (schedulerTick s) else none := by
    rw [loopTick,hu]
  rw [sleepTurn_eq]
  split_ifs with hb
  · have ht := schedulerTick_spec h
    rw [if_pos hb] at hloop
    obtain ⟨hstep,hsleep⟩ := touches_step
    rw [hloop]
    exact ⟨rfl,(hsleep (.inl (by rw [ht.current,ht.main,hc]))).trans (ht.sleepUntil.trans hu),
      hstep.tickCount.trans ht.tickCount⟩
  · rw [if_neg hb] at hloop
    rw [hloop]
    exact ⟨rfl,rfl⟩

variable {t n : UInt32} {k : ℕ}

def Looping (t n : UInt32) (k : ℕ) (m : Machine) : Prop :=
  (m.sched.sleepUntil = some (t+n) ∧ m.sched.tickCount = t+UInt32.ofNat k ∧ k ≤ n.toNat) ∨
    (m.sched.sleepUntil = none ∧ k = n.toNat)

theorem before_iff (h : t.toNat+n.toNat < 2^32) (hk : k ≤ n.toNat) :
    t+UInt32.ofNat k < t+n ↔ k < n.toNat := by
  rw [UInt32.lt_iff_toNat_lt,UInt32.toNat_add,UInt32.toNat_add,UInt32.toNat_ofNat']
  omega

theorem sleepTurn_looping (h : Steady s live lost)
    (hc : s.current = s.main) (ht : t.toNat+n.toNat < 2^32) (hu : s.sleepUntil = some (t+n))
    (hk : s.tickCount = t+UInt32.ofNat k) (hkn : k ≤ n.toNat) :
    Looping t n (k+if (loopTick s).isSome then 1 else 0) { m with sched := sleepTurn s } := by
  have hspec := sleepTurn_spec h hc hu
  rw [hk] at hspec
  split_ifs at hspec with hb
  · obtain ⟨hl,hsleep,htick⟩ := hspec
    rw [hl]
    refine .inl ⟨hsleep,?_,(before_iff ht hkn).mp hb⟩
    simpa [UInt32.add_assoc] using htick
  · obtain ⟨hl,hsleep⟩ := hspec
    rw [hl]
    refine .inr ⟨hsleep,?_⟩
    have := mt (before_iff ht hkn).mpr hb
    simpa using by omega

theorem tickBy_of_task (hc : m.sched.current ≠ m.sched.main) (hop : op ≠ .call .tick) :
    tickBy m op = none := by
  cases op with
  | call c =>
    cases c with
    | tick => exact absurd rfl hop
    | sleep ticks => exact if_neg hc
    | mainLoop => exact if_neg hc
    | _ => rfl
  | _ => rfl

section

variable (h : Steady m.sched m.live fun _ => True) (ht : t.toNat+n.toNat < 2^32) (hl : Looping t n k
  m)
include h ht hl

theorem act_looping (hd : During m op) : Looping t n (k+ticks m op) (act m op) := by
  obtain ⟨-,hstill,hfrom,hop,hin,hmain⟩ := hd
  obtain ⟨hu,hk,hkn⟩ := hl.resolve_right fun e => hin e.1
  by_cases hc : m.sched.current = m.sched.main
  · obtain rfl := hmain hc
    have hact : act m (.call .mainLoop) = { m with sched := sleepTurn m.sched } := by
      rw [act,perform,if_pos hc]
      rfl
    rw [hact,ticks,tickBy,tickOf,if_pos hc]
    exact sleepTurn_looping h hc ht hu hk hkn
  · have hn := tickBy_of_task hc hop
    obtain ⟨htouch,-,hsleep⟩ := act_touches h hstill hn
    rw [ticks,hn]
    exact .inl ⟨(hsleep hc hfrom).trans hu,htouch.tickCount.trans hk,hkn⟩

theorem run_looping (hd : Each act During m ops) : Looping t n (k+total act ticks m ops) (after
    act m ops) := by
  induction ops generalizing m k with
  | nil => exact hl
  | cons op ops ih =>
    rw [total,←add_assoc]
    exact ih (act_steady h hd.1.1) (act_looping h ht hl hd.1) hd.2

end

theorem act_sleep_main (h : Settled m.sched m.live) (hc : m.sched.current = m.sched.main) :
    act m (.call (.sleep n)) = { m with
      sched := sleepTurn (m.sched.setSleepUntil (some (m.sched.tickCount+n))) } := by
  rw [act,perform,taskSleep_main h hc]
  rfl

theorem mainSleepsExactly_iff (h : Steady m.sched m.live fun _ => True)
    (hc : m.sched.current = m.sched.main) (n : UInt32) :
    MainSleepsExactly n m ↔ m.sched.tickCount.toNat+n.toNat < 2^32 := by
  have hs := (alike_setSleepUntil m.sched (some (m.sched.tickCount+n))).steady h
  have hact := act_sleep_main h.toSettled hc (n:=n)
  have hticks : ticks m (.call (.sleep n)) =
      if (loopTick (m.sched.setSleepUntil (some (m.sched.tickCount+n)))).isSome then 1 else 0 := by
    rw [ticks,tickBy,tickOf,if_pos hc]
  constructor
  · intro hex
    by_contra hwrap
    obtain ⟨hret,-⟩ := hex [] trivial
    have hlate : ¬m.sched.tickCount < m.sched.tickCount+n := by
      have := m.sched.tickCount.toNat_lt
      have := n.toNat_lt
      rw [UInt32.lt_iff_toNat_lt,UInt32.toNat_add]
      omega
    have hspec := sleepTurn_spec hs hc rfl
    rw [setSleepUntil_tickCount,if_neg hlate] at hspec
    rw [hspec.1] at hticks
    have hzero := hret (by rw [hact]; exact hspec.2)
    simp only [sleepTicks,hticks,total] at hzero
    have := m.sched.tickCount.toNat_lt
    simp at hzero
    omega
  · intro ht ops hd
    have hstart : Looping m.sched.tickCount n (ticks m (.call (.sleep n)))
        (act m (.call (.sleep n))) := by
      have hl := sleepTurn_looping (m:=m) (k:=0) hs hc ht rfl (by simp)
        (Nat.zero_le _)
      rw [hact,hticks]
      rwa [zero_add] at hl
    have hsteady : Steady (act m (.call (.sleep n))).sched (act m (.call (.sleep n))).live
        fun _ => True := act_steady h trivial
    have hrun := run_looping hsteady ht hstart hd
    rw [←sleepTicks] at hrun
    refine ⟨fun hu => ?_,fun hu => ?_⟩
    · rcases hrun with ⟨hu',-⟩ | ⟨-,hk⟩
      · exact absurd (hu'.symm.trans hu) (Option.some_ne_none _)
      · exact hk
    · obtain ⟨hu',hk,hkn⟩ := hrun.resolve_right fun e => hu e.1
      refine ⟨hkn,fun hc' => ?_⟩
      rw [tickBy,tickOf,if_pos hc',loopTick,hu',hk]
      simp only [before_iff ht hkn]
      split_ifs with hlt <;> simp [hlt]

end

/-- `task_sleep` sleeps as long as it should from exactly those ticks from which it ends before
the wrap. -/
theorem task_sleep_exact_iff (h : Reachable m) (n : UInt32) :
    (∀ c, m.sched.current = some c → some c ≠ m.sched.main →
      (SleepsExactly c n.toNat (act m (.call (.sleep n))) ↔ Punctual m.sched.tickCount n)) ∧
    (m.sched.current = m.sched.main →
      (MainSleepsExactly n m ↔ m.sched.tickCount.toNat+n.toNat < 2^32)) :=
  ⟨fun _ hc hm => sleepsExactly_iff h.spec.1 hc hm,fun hc => mainSleepsExactly_iff h.spec.1 hc n⟩

theorem reachable_booted (ops : List Op) (h : Each act Permitted (powerOn booted) ops) :
    Reachable (after act (powerOn booted) ops) :=
  ⟨true,true,booted,ops,schedulerInit_booted,h,rfl⟩

def oneTask : List Op := [.call (.create 2 true true),.call .start]

theorem task_sleep_exact_one :
    SleepsExactly 5 10 (act (after act (powerOn booted) oneTask) (.call (.sleep 10))) ∧
      MainSleepsExactly 10 (powerOn booted) :=
  ⟨((task_sleep_exact_iff (reachable_booted oneTask (by decide +kernel)) 10).1 5
      (by decide +kernel) (by decide +kernel)).mpr (by decide +kernel),
    ((task_sleep_exact_iff (reachable_booted [] trivial) 10).2 (by decide +kernel)).mpr
      (by decide +kernel)⟩

def lateTask : List Op :=
  [.call (.create 2 true true),.deepSleep 0xFFFFFFFE,.call .start]

theorem sleep_past_wrap_ends_early : Each act Permitted (powerOn booted) lateTask ∧
    ¬SleepsExactly 5 10 (act (after act (powerOn booted) lateTask) (.call (.sleep 10))) ∧
    ¬MainSleepsExactly 10 (after act (powerOn booted) [.deepSleep 0xFFFFFFFE]) := by
  refine ⟨by decide +kernel,fun h => ?_,fun h => ?_⟩
  · have hb := (h [] (.call .tick) _ ⟨⟨trivial,⟨by simp,by simp⟩,trivial⟩,trivial⟩ rfl).1 (by decide)
    exact absurd hb (by decide +kernel)
  · have hn := (h [] trivial).1 (by decide +kernel)
    exact absurd hn (by decide +kernel)

section

variable {m : Machine} {op : Op} {ops : List Op} {s s' : Sched} {live : TaskId → Bool}
  {lost : TaskId → Prop}

/-- The blocked tasks whose time is still to come. -/
def Pending (s : Sched) (t : TaskId) : Prop :=
  t ∈ queue s .blocked ∧ s.tickCount < (s.tasks t).wakeTime
  deriving Decidable

def Idles : Op → Prop
  | .enterIdle => True
  | .ticklessIdle => True
  | _ => False

/-- Not put back, nor past the wake time of a sleeper. -/
def KeepsTime (m : Machine) (op : Op) : Prop :=
  m.sched.tickCount ≤ (act m op).sched.tickCount ∧
    (Idles op → ∀ t, Pending m.sched t → (act m op).sched.tickCount ≤ (m.sched.tasks t).wakeTime)

/-- Not behind the clock, nor behind the next wake time. -/
def CacheGood (s : Sched) : Prop :=
  s.nextWakeTick = noWake ∨ (s.tickCount ≤ s.nextWakeTick ∧
    ∀ t, Pending s t → s.nextWakeTick ≤ (s.tasks t).wakeTime)
  deriving Decidable

/-- The cache is in order when used, and no deep sleep passes the wrap. -/
def Timely (m : Machine) : Op → Prop
  | .enterIdle => CacheGood m.sched
  | .ticklessIdle => m.power.ticklessIdleEnabled = false ∨ CacheGood m.sched
  | .deepSleep timeoutTicks => m.power.ticklessIdleEnabled = false ∨
      m.sched.tickCount.toNat+timeoutTicks.toNat < 2^32
  | _ => True

instance decidableTimely (m : Machine) : ∀ op, Decidable (Timely m op)
  | .enterIdle => inferInstanceAs (Decidable (CacheGood m.sched))
  | .ticklessIdle | .deepSleep _ => inferInstanceAs (Decidable (_ ∨ _))
  | .call _ | .exitIdle | .enableTickless _ | .setDeepSleepMin _ => isTrue trivial

theorem foldl_earlier (s : Sched) (ts : List TaskId) (bound : UInt32) :
    (∀ t ∈ ts, ts.foldl (earlier s) bound ≤ (s.tasks t).wakeTime) ∧
      ts.foldl (earlier s) bound ≤ bound ∧
      (ts.foldl (earlier s) bound = bound ∨
        ∃ t ∈ ts, ts.foldl (earlier s) bound = (s.tasks t).wakeTime) := by
  induction ts generalizing bound with
  | nil => exact ⟨by simp,UInt32.le_refl bound,.inl rfl⟩
  | cons t ts ih =>
    obtain ⟨hall,hle,hex⟩ := ih (earlier s bound t)
    have hb : earlier s bound t ≤ bound ∧ earlier s bound t ≤ (s.tasks t).wakeTime ∧
        (earlier s bound t = bound ∨ earlier s bound t = (s.tasks t).wakeTime) := by
      rw [earlier]
      split_ifs with hlt
      · exact ⟨UInt32.le_of_lt hlt,UInt32.le_refl _,.inr rfl⟩
      · exact ⟨UInt32.le_refl _,UInt32.not_lt.mp hlt,.inl rfl⟩
    obtain ⟨hb₁,hb₂,hb₃⟩ := hb
    rw [List.foldl_cons]
    refine ⟨?_,UInt32.le_trans hle hb₁,?_⟩
    · intro y hy
      rcases List.mem_cons.mp hy with rfl | hy
      · exact UInt32.le_trans hle hb₂
      · exact hall y hy
    · rcases hex with he | ⟨y,hy,he⟩
      · rcases hb₃ with hb | hb
        · exact .inl (he.trans hb)
        · exact .inr ⟨t,List.mem_cons_self,he.trans hb⟩
      · exact .inr ⟨y,List.mem_cons_of_mem t hy,he⟩

section

variable (ht : Ticked live s s') (hs : Steady s' live lost)
include ht hs

theorem Ticked.blocked_later (hb : t ∈ queue s' .blocked) : s'.tickCount < (s'.tasks t).wakeTime := by
  obtain ⟨hm,hl,hstate⟩ := home_blocked (((hs.threads.queue_spec _).2 t).mp hb)
  have hdata := ht.data t
  split_ifs at hdata with hdue
  · have hready : s'.state t = .ready := congrArg (·.1) hdata
    simp [hstate] at hready
  · have hst : s.state t = .blocked := (congrArg (·.1) hdata).symm.trans hstate
    have hw : (s'.tasks t).wakeTime = (s.tasks t).wakeTime := congrArg (·.2.2) hdata
    have hhome : home s live t = some .blocked := by
      rw [home_live (ht.main▸hm) hl,hst]
    rw [ht.tickCount,hw]
    exact UInt32.not_le.mp fun hle => hdue ⟨hhome,hle⟩

theorem Ticked.cacheGood : CacheGood s' := by
  obtain ⟨hall,-,hex⟩ := foldl_earlier s' (queue s' .blocked) 0xFFFFFFFF
  rw [←ht.nextWakeTick] at hall hex
  refine hex.imp_right ?_
  rintro ⟨t,htq,he⟩
  refine ⟨?_,fun y hy => hall y hy.1⟩
  rw [he]
  exact UInt32.le_of_lt (ht.blocked_later hs htq)

end

theorem le_add_iff (t n : UInt32) : t ≤ t+n ↔ t.toNat+n.toNat < 2^32 := by
  have ht := t.toNat_lt
  have hn := n.toNat_lt
  rw [UInt32.le_iff_toNat_le,UInt32.toNat_add]
  omega

theorem keepsTime_of_still (h : Steady m.sched m.live lost)
    (hlt : m.sched.tickCount.toNat < 2^31) (hs : Still m op) : KeepsTime m op := by
  have hcount := act_tickCount h hs
  refine ⟨?_,fun hidle t ht => ?_⟩
  · rw [hcount,le_add_iff,ticks]
    split_ifs <;> simp <;> omega
  · have hnone : ticks m op = 0 := by
      cases op <;> first | rfl | exact hidle.elim
    rw [hcount,hnone]
    simpa using UInt32.le_of_lt ht.2

theorem keepsTime_of_jump (hi : Idles op) (hw : m.sched.nextWakeTick ≠ noWake)
    (hjump : (act m op).sched.tickCount = m.sched.nextWakeTick) :
    KeepsTime m op ↔ CacheGood m.sched := by
  rw [KeepsTime,CacheGood,or_iff_right hw,hjump]
  exact and_congr_right fun _ => ⟨fun h => h hi,fun h _ => h⟩

/-- A step keeps time when it is timely, and only then. -/
theorem keepsTime_iff (h : Steady m.sched m.live fun _ => True)
    (hlt : m.sched.tickCount.toNat < 2^31) : KeepsTime m op ↔ Timely m op := by
  have hstill (hs : Still m op) (ht : Timely m op) : KeepsTime m op ↔ Timely m op :=
    iff_of_true (keepsTime_of_still h hlt hs) ht
  have hself : m.sched.nextWakeTick = m.sched.tickCount → CacheGood m.sched := by
    intro he
    rw [CacheGood,he]
    exact .inr ⟨UInt32.le_refl _,fun t ht => UInt32.le_of_lt ht.2⟩
  cases op with
  | enterIdle =>
    by_cases hs : Still m .enterIdle
    · exact hstill hs (hs.elim .inl hself)
    · rw [Still] at hs
      refine keepsTime_of_jump trivial (fun e => hs (.inl e)) ?_
      rw [act,schedulerEnterIdle_world,if_neg hs]
      rfl
  | ticklessIdle =>
    by_cases hs : Still m .ticklessIdle
    · exact hstill hs (hs.imp_right fun e => e.elim .inl hself)
    · rw [Still] at hs
      have hen : ¬m.power.ticklessIdleEnabled = false := fun e => hs (.inl e)
      have hw : ¬m.sched.nextWakeTick = noWake := fun e => hs (.inr (.inl e))
      rw [Timely,or_iff_right hen]
      refine keepsTime_of_jump trivial hw ?_
      rw [act,schedulerTicklessIdle_world,if_neg (not_or.mpr ⟨hen,hw⟩)]
      rfl
  | deepSleep timeoutTicks =>
    by_cases hen : m.power.ticklessIdleEnabled = false
    · exact hstill (.inl hen) (.inl hen)
    · rw [Timely,or_iff_right hen,KeepsTime,and_iff_left (fun hidle => hidle.elim),act,
        schedulerEnterDeepSleep_world,if_neg hen]
      exact le_add_iff _ _
  | _ => exact hstill trivial trivial

/-- Legal, with a tick count below `2^31`. -/
def BelowHalf (m : Machine) (op : Op) : Prop := Permitted m op ∧ m.sched.tickCount.toNat < 2^31
  deriving Decidable

/-- The clock is kept exactly as long as the steps are timely, and every tick puts the cache in
order. -/
theorem tickless_keeps_time_iff (h : Reachable m) (hb : Each act BelowHalf m ops) :
    (Each act KeepsTime m ops ↔ Each act Timely m ops) ∧
      ∀ op s, tickBy (after act m ops) op = some s → CacheGood s := by
  have hstep : ∀ m op, Steady m.sched m.live (fun _ => True) → BelowHalf m op →
      Steady (act m op).sched (act m op).live fun _ => True :=
    fun m op hs hp => act_steady hs hp.1
  refine ⟨each_iff_of_each (I:=fun m => Steady m.sched m.live fun _ => True)
      (fun m op hs hp _ => hstep m op hs hp) (fun _ _ hs hp => keepsTime_iff hs hp.2) h.spec.1 hb,
    fun op s ht => ?_⟩
  have hend : Steady (after act m ops).sched (after act m ops).live fun _ => True :=
    invariant (I:=fun m => Steady m.sched m.live fun _ => True) hstep h.spec.1 hb
  obtain ⟨hs,⟨u,htick⟩,-⟩ := act_ticks hend ht
  exact htick.cacheGood hs

def idleRun : List Op :=
  [.call (.create 2 true true),.call .start,.call (.sleep 5),.call .tick,.enterIdle,.call .tick,
    .call .step,.call (.sleep 3),.call .tick,.ticklessIdle,.deepSleep 7,.enableTickless true]

theorem tickless_keeps_time_idle : Each act KeepsTime (powerOn booted) idleRun :=
  have hb : Each act BelowHalf (powerOn booted) idleRun := by decide +kernel
  (tickless_keeps_time_iff (reachable_booted [] trivial) hb).1.mpr (by decide +kernel)

/-- A deep sleep goes past the wake time that is cached. -/
def staleRun : List Op :=
  [.call (.create 2 true true),.call .start,.call (.sleep 5),.call .tick,.deepSleep 20]

theorem enter_idle_rewinds : Each act BelowHalf (powerOn booted) (staleRun++[.enterIdle]) ∧
    (after act (powerOn booted) staleRun).sched.tickCount = 21 ∧
    (after act (powerOn booted) (staleRun++[.enterIdle])).sched.tickCount = 5 ∧
    ¬Each act KeepsTime (powerOn booted) (staleRun++[.enterIdle]) := by
  refine ⟨by decide +kernel,by decide +kernel,by decide +kernel,fun h => ?_⟩
  exact absurd (each_append.mp h).2.1.1 (by decide +kernel)

end

end TinyDeviceOs.Scheduler
