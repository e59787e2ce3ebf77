import TinyDeviceOs.SchedulerIdle

/-! Which task a switch goes to. The task that yields is put back only after the choice. -/
namespace TinyDeviceOs.Scheduler

open Runs List Option

theorem mem_priorities : q ∈ ([4,3,2,1,0] : List Priority) := by
  revert q
  decide

theorem highest_some (h : taskGetHighestReady s = some t) :
    ∃ p, s.heads (.ready p) = some t ∧ ∀ q, p < q → s.heads (.ready q) = none := by
  rw [taskGetHighestReady,findSome?_eq_some_iff] at h
  obtain ⟨before,p,after,hl,hp,hnone⟩ := h
  refine ⟨p,hp,fun q hq => hnone q ?_⟩
  have hsorted : List.Pairwise (· > ·) (before++p::after) := by
    rw [←hl]
    decide
  have hmem : q ∈ before++p::after := hl▸mem_priorities
  rcases mem_append.mp hmem with hb | ha
  · exact hb
  · rcases mem_cons.mp ha with rfl | ha
    · exact absurd hq (lt_irrefl _)
    · have := rel_of_pairwise_cons (pairwise_append.mp hsorted).2.1 ha
      exact absurd hq (not_lt_of_gt this)

theorem highest_none (h : taskGetHighestReady s = none) : s.heads (.ready p) = none := by
  rw [taskGetHighestReady,findSome?_eq_none_iff] at h
  exact h p mem_priorities

section

variable (h : Settled s live)
include h

theorem Settled.not_home (hi : s.heads i = none) : home s live t ≠ some i := by
  intro ht
  obtain ⟨hl,hm⟩ := h.threads.queue_spec i
  have hmem := (hm t).mpr ht
  have hempty : (queue s i).head? = none := hl.head_eq.symm.trans hi
  rw [head?_eq_none_iff.mp hempty] at hmem
  exact not_mem_nil hmem

theorem nextToRun_max (hn : nextToRun s = some x) (ht : home s live t = some (.ready q)) : q ≤
    s.priority x := by
  obtain ⟨hh,-⟩ := filter_eq_some_iff.mp hn
  obtain ⟨p,hp,hnone⟩ := highest_some hh
  obtain ⟨-,-,-,rfl⟩ := home_ready (h.head_home hp)
  by_contra hlt
  exact h.not_home (hnone q (not_le.mp hlt)) ht

theorem nextToRun_idle (hn : nextToRun s = none) (ht : home s live t = some (.ready q)) : q =
    prioIdle := by
  cases hh : taskGetHighestReady s with
  | none => exact absurd ht (h.not_home (highest_none hh))
  | some y =>
    obtain ⟨p,hp,hnone⟩ := highest_some hh
    obtain ⟨-,-,-,rfl⟩ := home_ready (h.head_home hp)
    have hidle : s.priority y = prioIdle := by
      rw [nextToRun,hh] at hn
      simpa [Option.filter] using hn
    have hle : q ≤ s.priority y := by
      by_contra hlt
      exact h.not_home (hnone q (not_le.mp hlt)) ht
    rw [hidle] at hle
    exact le_antisymm hle (Fin.zero_le q)

theorem nextToRun_eq (hx : s.heads (.ready p) = some x) (hp : p ≠ prioIdle) (hmax : ∀ t q, home
    s live t = some (.ready q) → q ≤ p) : nextToRun s = some x := by
  cases hn : nextToRun s with
  | none => exact absurd (nextToRun_idle h hn (h.head_home hx)) hp
  | some y =>
    obtain ⟨p',hp'⟩ := nextToRun_head hn
    obtain ⟨-,-,-,rfl⟩ := home_ready (h.head_home hp')
    have hge := nextToRun_max h hn (h.head_home hx)
    obtain rfl := le_antisymm hge (hmax y _ (h.head_home hp'))
    exact hp'.symm.trans hx

end

theorem contextSwitch_current (hm : some t ≠ s.main) : (contextSwitch s t).current = some t := by
  rw [contextSwitch,if_neg hm,(resumeTask_alike (by simp)).current]
  rfl

theorem switchToMain_priority (hm : s.main = some t) (y : TaskId) :
    (switchToMain s).priority y = s.priority y := by
  rw [switchToMain_eq hm,setState_priority]
  rfl

theorem contextSwitch_priority (hm : some t ≠ s.main) (y : TaskId) :
    (contextSwitch s t).priority y = s.priority y := by
  rw [contextSwitch,if_neg hm,(resumeTask_alike (by simp)).priority,setState_priority]
  exact taskListRemove_priority

/-- It is above every task that was ready before. -/
theorem dispatch_max (h : Settled s live) (h' : Steady s' live lost) (hx : s'.current = some x)
    (hnext : nextToRun s = some x ∨ nextToRun s = none)
    (hp : ∀ y, s'.priority y = s.priority y) (ht : live t = true) (hr : s'.state t = .ready)
    (hback : t ≠ x → s.state t = .ready) : s'.priority t ≤ s'.priority x := by
  have hne : t ≠ x := by
    rintro rfl
    rcases h'.current with hc | ⟨c,hc,-,hrun⟩
    · simp [h'.main_running (hx.symm.trans hc)] at hr
    · obtain rfl := some.inj (hx.symm.trans hc)
      simp [hrun] at hr
  have hhome : home s live t = some (.ready (s.priority t)) := by
    rw [home_live (h.ne_main ht) ht,hback hne]
  rw [hp,hp]
  rcases hnext with hn | hn
  · exact nextToRun_max h hn hhome
  · rw [nextToRun_idle h hn hhome]
    exact Fin.zero_le _

/-- A task that becomes current is above every ready one. -/
def Chosen (live : TaskId → Bool) (s s' : Sched) : Prop :=
  ∀ ⦃x t⦄, s.current ≠ some x → s'.current = some x → live t = true → s'.state t = .ready →
    s'.priority t ≤ s'.priority x

theorem schedulerStep_dispatch (h : Steady s live fun _ => True)
    (hs : schedulerStep s = some s') : Chosen live s s' := by
  intro x t hd hx ht hr
  have h' := schedulerStep_steady h (.inr fun _ => trivial) hs
  obtain ⟨htouch,-⟩ := touches_schedulerStep hs
  obtain ⟨-,rfl | ⟨n,hn,rfl⟩⟩ := schedulerStep_cases hs
  · exact absurd hx hd
  · obtain ⟨p,hp⟩ := nextToRun_head hn
    have hne : some n ≠ (s.setSleepUntil
        (if s.current = s.main then s.sleepUntil else none)).main :=
      (home_ready (h.head_home hp)).1
    obtain rfl : n = x := some.inj ((contextSwitch_current hne).symm.trans hx)
    refine dispatch_max h.toSettled h' hx (.inl hn) (contextSwitch_priority hne) ht hr
      fun htn => ?_
    have hdata := htouch.data t (not_or.mpr ⟨fun e => h.ne_main ht e.symm,fun e => htn ?_⟩)
    · exact (congrArg (·.1) hdata).symm.trans hr
    · exact (some.inj (hn.symm.trans e)).symm

theorem step_dispatch (h : Steady s live fun _ => True) (hc : d.current = s.current) :
    Chosen live s ((schedulerStep s).getD d) := by
  cases hs : schedulerStep s with
  | none => exact fun x t hd hx => absurd (hc.symm.trans hx) hd
  | some s' => exact schedulerStep_dispatch h hs

theorem switchTo_dispatch (hs : switchTo s₂ (nextToRun s) = s') (h : Steady s live fun _ => True)
    (h' : Steady s' live fun _ => True) (hk : Keeps c s s₂)
    (hp : ∀ y, s₂.priority y = s.priority y) (hx : s'.current = some x) (ht : live t = true)
    (htc : t ≠ c) (hr : s'.state t = .ready) : s'.priority t ≤ s'.priority x := by
  subst hs
  have htouch := touches_switchTo s₂ (nextToRun s)
  have hback (htx : nextToRun s ≠ some t) : s.state t = .ready := by
    have hdata := htouch.data t (not_or.mpr ⟨fun e => h.ne_main ht (hk.main▸e.symm),htx⟩)
    exact (hk.state t (Ne.symm htc)).symm.trans ((congrArg (·.1) hdata).symm.trans hr)
  cases hn : nextToRun s with
  | none =>
    rw [hn] at h' hx hr hback
    obtain ⟨m,hm,-⟩ := h.main
    exact dispatch_max h.toSettled h' hx (.inr hn)
      (fun y => (switchToMain_priority (hk.main.trans hm) y).trans (hp y)) ht hr
      fun _ => hback (by simp)
  | some n =>
    obtain ⟨p,hhead⟩ := nextToRun_head hn
    have hne : some n ≠ s₂.main := hk.main▸(home_ready (h.head_home hhead)).1
    rw [hn] at h' hx hr hback
    obtain rfl : n = x := some.inj ((contextSwitch_current hne).symm.trans hx)
    exact dispatch_max h.toSettled h' hx (.inl hn)
      (fun y => (contextSwitch_priority hne y).trans (hp y)) ht hr
      fun htx => hback fun e => htx (some.inj e).symm

/-- The caller of `task_yield`, back on its ready list. -/
def requeued (s : Sched) (c : TaskId) : Sched :=
  taskAddToReady (((schedulerLock s).setContext c .yield).setState c .ready) c

theorem taskYield_task (h : Steady s live lost) (hc : s.current = some c) (hm : some c ≠ s.main) :
    taskYield s = switchTo (requeued s c) (nextToRun s) := by
  have ha := alike_lock s
  have hr := (h.current_live hc hm).2.1
  rw [taskYield,ha.current,ha.main,hc]
  simp only [hm,if_false,ha.state,hr,if_true,nextToRun_parked,ha.nextToRun]
  rfl

theorem taskYield_main (hc : s.current = s.main) : taskYield s =
    (schedulerStep (schedulerUnlock (schedulerLock s))).getD
      (schedulerUnlock (schedulerLock s)) := by
  rw [taskYield,(alike_lock s).current,(alike_lock s).main]
  exact if_pos hc

theorem keeps_lock (s : Sched) (c : TaskId) : Keeps c s (schedulerLock s) :=
  have ha := alike_lock s
  ⟨ha.main,ha.current,ha.started,fun y _ => congrFun ha.state y,fun y _ => congrFun ha.priority y⟩

theorem keeps_requeued (s : Sched) (c : TaskId) : Keeps c s (requeued s c) :=
  (((keeps_lock s c).trans (keeps_modify _ c _)).trans (keeps_setState _ c .ready)).trans
    (keeps_taskAddToReady _ c)

theorem requeued_priority (s : Sched) (c y : TaskId) :
    (requeued s c).priority y = s.priority y := by
  rw [requeued,taskAddToReady_priority,setState_priority,(alike_setContext _ c .yield).priority,
    (alike_lock s).priority]

theorem taskYield_dispatch (h : Steady s live fun _ => True) (hd : s.current ≠ some x)
    (hx : (taskYield s).current = some x) (ht : live t = true) (htc : s.current ≠ some t)
    (hr : (taskYield s).state t = .ready) :
    (taskYield s).priority t ≤ (taskYield s).priority x := by
  have h' := taskYield_steady h
  by_cases hc : s.current = s.main
  · rw [taskYield_main hc] at h' hx hr ⊢
    have ha := (alike_lock s).trans (alike_unlock _)
    exact step_dispatch (ha.steady h) rfl (ha.current▸hd) hx ht hr
  · obtain ⟨c,hcc,-⟩ := h.current.resolve_left hc
    rw [taskYield_task h hcc (hcc▸hc)] at h' hx hr ⊢
    exact switchTo_dispatch rfl h h' (keeps_requeued s c) (requeued_priority s c) hx ht
      (fun e => htc (e▸hcc)) hr

theorem taskSuspend_self (hc : s.current = some c) : taskSuspend s (some c) =
    switchTo (((schedulerLock s).setContext c .suspend).setState c .suspended) (nextToRun s) := by
  rw [taskSuspend,(alike_lock s).current,hc]
  simp only [if_true,nextToRun_parked,(alike_lock s).nextToRun]

theorem taskSuspend_other (hc : s.current ≠ o) : (taskSuspend s o).current = s.current := by
  cases o with
  | none => rfl
  | some t =>
    rw [taskSuspend,(alike_lock s).current,if_neg (Ne.symm hc),←(alike_lock s).current]
    generalize schedulerLock s = s₁
    have hoff (i : ListId) := (keeps_taskListRemove s₁ i t t).current
    cases s₁.state t with
    | ready => exact (alike_unlock _).current.trans (hoff _)
    | blocked => exact (alike_unlock _).current.trans (hoff .blocked)
    | _ => exact (alike_unlock s₁).current

section

variable (h : Steady s live fun _ => True)
include h

theorem taskSuspend_dispatch (h' : Steady (taskSuspend s o) live fun _ => True) :
    Chosen live s (taskSuspend s o) := by
  intro x t hd hx ht hr
  by_cases ho : s.current = o
  · cases o with
    | none => exact absurd (ho.symm▸hx) hd
    | some c =>
      rw [taskSuspend_self ho] at h' hx hr ⊢
      have ha := alike_lock s
      refine switchTo_dispatch rfl h h' (((keeps_lock s c).trans (keeps_modify _ c _)).trans
        (keeps_setState _ c .suspended)) (fun y => ?_) hx ht ?_ hr
      · rw [setState_priority,(alike_setContext _ c .suspend).priority,ha.priority]
      · rintro rfl
        have hm := h.ne_main ht
        have hnext : nextToRun s ≠ some t := by
          intro hn
          obtain ⟨p,hp⟩ := nextToRun_head hn
          have hhome := h.head_home hp
          simp [(h.current_live ho hm).2.2] at hhome
        set s₂ := ((schedulerLock s).setContext t .suspend).setState t .suspended with hs₂
        have hmain : s₂.main ≠ some t := fun e => hm (ha.main▸e.symm)
        have hdata := (touches_switchTo s₂ (nextToRun s)).data t (not_or.mpr ⟨hmain,hnext⟩)
        have hstate : s₂.state t = .ready := (congrArg (·.1) hdata).symm.trans hr
        simp [hs₂] at hstate
  · exact absurd ((taskSuspend_other ho).symm.trans hx) hd

/-- Through `scheduler_step`, `task_yield` or `task_suspend`. -/
def Dispatching (m : Machine) : Op → Prop
  | .call .step => True
  | .call .start => True
  | .call .mainLoop => True
  | .call (.sleep _) => m.sched.current = m.sched.main
  | .call .yield => True
  | .call (.suspend _) => True
  | .enterIdle => True
  | _ => False

def Yielding (op : Op) : Prop := op = .call .yield ∨ op = .enterIdle

theorem sleepTurn_dispatch : Chosen live s (sleepTurn s) := by
  rw [sleepTurn_eq]
  cases hl : loopTick s with
  | none => exact fun x t hd hx => absurd hx hd
  | some s₁ =>
    obtain rfl := loopTick_some hl
    intro x t hd
    exact step_dispatch (schedulerTick_steady h) rfl ((schedulerTick_current s).1▸hd)

end

/-- The task that becomes current has at least the priority of every ready one but the one that
yielded. -/
theorem dispatch_highest (h : Reachable m) {op : Op} (hl : Permitted m op)
    (hop : Dispatching m op) (hd : m.sched.current ≠ some x)
    (hx : (act m op).sched.current = some x) (ht : (act m op).live t = true)
    (hr : (act m op).sched.state t = .ready) (hy : Yielding op → m.sched.current ≠ some t) :
    (act m op).sched.priority t ≤ (act m op).sched.priority x := by
  have hs := h.spec.1
  cases op with
  | call c =>
    cases c with
    | step => exact step_dispatch hs rfl hd hx ht hr
    | start =>
      rw [act,perform,schedulerStart] at hx hr ⊢
      split_ifs at hx hr ⊢ with hst
      · exact absurd hx hd
      · have hs₁ : Steady { m.sched with started := true } m.live fun _ => True :=
          ⟨⟨hs.threads,hs.main⟩,hs.current,hs.alone,fun hf => absurd hf (by simp)⟩
        exact step_dispatch (d:=m.sched) hs₁ rfl hd hx ht hr
    | mainLoop =>
      rw [act,perform] at hx hr ht ⊢
      split_ifs at hx hr ht ⊢
      · exact sleepTurn_dispatch hs hd hx ht hr
      · exact absurd hx hd
    | sleep ticks =>
      have hu := (alike_setSleepUntil m.sched (some (m.sched.tickCount+ticks))).steady hs
      rw [act,perform,taskSleep_main hs.toSettled hop] at hx hr ⊢
      exact sleepTurn_dispatch hu hd hx ht hr
    | yield => exact taskYield_dispatch hs hd hx ht (hy (.inl rfl)) hr
    | suspend o => exact taskSuspend_dispatch hs (taskSuspend_steady hs hl.1 hl.2) hd hx ht hr
    | _ => exact hop.elim
  | enterIdle =>
    rw [act,schedulerEnterIdle_world] at hx hr ht ⊢
    split_ifs at hx hr ht ⊢
    · exact taskYield_dispatch hs hd hx ht (hy (.inr rfl)) hr
    · exact absurd hx hd
  | _ => exact hop.elim

/-- Priority 2 runs, 3 and 4 are created. -/
def threeTasks : List Op := [.call (.create 2 true true),.call .start,
  .call (.create 3 true true),.call (.create 4 true true)]

theorem dispatch_highest_three :
    (act (after act (powerOn booted) threeTasks) (.call .yield)).sched.current = some 3 ∧
      (act (after act (powerOn booted) threeTasks) (.call .yield)).sched.priority 4 ≤
        (act (after act (powerOn booted) threeTasks) (.call .yield)).sched.priority 3 :=
  have hx : (act (after act (powerOn booted) threeTasks) (.call .yield)).sched.current = some 3 := by
    decide +kernel
  ⟨hx,dispatch_highest ⟨true,true,booted,threeTasks,schedulerInit_booted,by decide +kernel,rfl⟩
    trivial trivial (by decide +kernel) hx (by decide +kernel) (by decide +kernel)
    (fun _ => by decide +kernel)⟩

/-- Priority 4 yields to priority 2. -/
def yieldingHigh : List Op := [.call (.create 2 true true),.call (.create 4 true true),.call .start]

theorem yield_leaves_higher_ready :
    Each act Permitted (powerOn booted) (yieldingHigh++[.call .yield]) ∧
      (after act (powerOn booted) yieldingHigh).sched.current = some 4 ∧
      (after act (powerOn booted) (yieldingHigh++[.call .yield])).sched.current = some 5 ∧
      (after act (powerOn booted) (yieldingHigh++[.call .yield])).sched.state 4 = .ready ∧
      (after act (powerOn booted) (yieldingHigh++[.call .yield])).sched.priority 5 <
        (after act (powerOn booted) (yieldingHigh++[.call .yield])).sched.priority 4 := by
  decide +kernel

end TinyDeviceOs.Scheduler
