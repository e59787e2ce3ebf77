import TinyDeviceOs.SchedulerRuns

/-! What the operations of the scheduler leave alone. -/
namespace TinyDeviceOs.Scheduler

open Option

variable {s s' s'' : Sched} {live : TaskId → Bool} {lost : TaskId → Prop} {t c : TaskId}

def Sched.data (s : Sched) (t : TaskId) : TaskState × Priority × UInt32 :=
  (s.state t,s.priority t,(s.tasks t).wakeTime)

/-- Besides links, saved contexts and the lock. -/
structure Touches (p : TaskId → Prop) (s s' : Sched) : Prop where
  data : ∀ y, ¬p y → s'.data y = s.data y
  main : s'.main = s.main
  tickCount : s'.tickCount = s.tickCount
  nextWakeTick : s'.nextWakeTick = s.nextWakeTick
  sleepUntil : s'.sleepUntil = s.sleepUntil
  lastSwitched : s.lastSwitched = none → s'.lastSwitched = none

theorem Touches.refl (p : TaskId → Prop) (s : Sched) : Touches p s s :=
  ⟨fun _ _ => rfl,rfl,rfl,rfl,rfl,id⟩

theorem Touches.trans (h : Touches p s s') (h' : Touches p s' s'') : Touches p s s'' :=
  ⟨fun y hy => (h'.data y hy).trans (h.data y hy),h'.main.trans h.main,
    h'.tickCount.trans h.tickCount,
    h'.nextWakeTick.trans h.nextWakeTick,h'.sleepUntil.trans h.sleepUntil,
    fun hn => h'.lastSwitched (h.lastSwitched hn)⟩

theorem Touches.mono (h : Touches p s s') (hq : ∀ y, p y → q y) : Touches q s s' :=
  { h with data := fun y hy => h.data y fun hp => hy (hq y hp) }

theorem Touches.named (h : Touches (· = t) s s') : Touches (fun y => some t = some y) s s' :=
  h.mono fun _ hy => congrArg some hy.symm

theorem Touches.setCurrent (h : Touches p s s') :
    Touches p s { s' with current := o } :=
  ⟨h.data,h.main,h.tickCount,h.nextWakeTick,h.sleepUntil,h.lastSwitched⟩

@[simp] theorem setSleepUntil_tickCount : (s.setSleepUntil u).tickCount = s.tickCount := rfl

section

variable (s : Sched) (t : TaskId) (i : ListId)

theorem touches_modify : Touches (· = t) s (s.modify t f) := by
  refine ⟨fun y hy => ?_,rfl,rfl,rfl,rfl,id⟩
  have he : (s.modify t f).tasks y = s.tasks y := by
    rw [modify_tasks,if_neg (Ne.symm hy)]
  rw [Sched.data,Sched.state,Sched.priority,he]
  rfl

theorem touches_setContext (x : Context) : Touches p s (s.setContext t x) := by
  refine ⟨fun y _ => ?_,rfl,rfl,rfl,rfl,id⟩
  rw [Sched.data,Sched.state,Sched.priority,Sched.setContext,modify_tasks]
  split_ifs <;> rfl

theorem touches_taskListAdd : Touches p s (taskListAdd s i t) := by
  refine ⟨fun y _ => ?_,?_,?_,?_,?_,?_⟩
  · rw [Sched.data,Sched.state,Sched.priority,taskListAdd_tasks]
    rfl
  all_goals
    rw [taskListAdd]
    cases s.heads i <;> first | rfl | exact id

theorem touches_taskListRemove : Touches p s (taskListRemove s i t) := by
  refine ⟨fun y _ => ?_,?_,?_,?_,?_,?_⟩
  · rw [Sched.data,Sched.state,Sched.priority,taskListRemove_tasks]
    rfl
  all_goals
    rw [taskListRemove]
    cases s.prev t <;> cases s.next t <;> first | rfl | exact id

theorem touches_setState : Touches (· = t) s (s.setState t x) :=
  touches_modify s t

theorem touches_taskAddToReady : Touches (· = t) s (taskAddToReady s t) :=
  (touches_taskListAdd s t _).trans (touches_setState _ t)

theorem touches_modifyAt : Touches (fun y => o = some y) s (s.modifyAt o f) := by
  cases o with
  | none => exact Touches.refl _ s
  | some t => exact (touches_modify s t).named

theorem touches_lock : Touches p s (schedulerLock s) := by
  rw [schedulerLock]
  split_ifs
  · exact Touches.refl _ s
  · exact ⟨fun _ _ => rfl,rfl,rfl,rfl,rfl,id⟩

theorem touches_unlock : Touches p s (schedulerUnlock s) := by
  rw [schedulerUnlock]
  split_ifs
  · exact ⟨fun _ _ => rfl,rfl,rfl,rfl,rfl,id⟩
  · exact Touches.refl _ s

theorem touches_switchToMain : Touches (fun y => s.main = some y) s (switchToMain s) :=
  { touches_modifyAt s with lastSwitched := fun _ => rfl }

end

theorem touches_resumeTask (t : TaskId) : Touches (· = t) s (resumeTask s t) := by
  rw [resumeTask]
  cases (s.tasks t).context with
  | entry => exact Touches.refl _ s
  | yield => exact touches_unlock s
  | sleep => exact touches_setState s t
  | suspend =>
    exact (touches_setState s t).trans (touches_unlock _)

theorem touches_contextSwitch (s : Sched) (t : TaskId) :
    Touches (fun y => s.main = some y ∨ some t = some y) s (contextSwitch s t) := by
  rw [contextSwitch]
  split_ifs with hm
  · exact (touches_switchToMain s).mono fun y => .inl
  · have hoff := touches_taskListRemove (p:=(· = t)) s t (.ready (s.priority t))
    have hrun := (hoff.setCurrent (o:=some t)).trans (touches_setState _ t (x:=.running))
    exact (hrun.trans (touches_resumeTask t)).named.mono fun y => .inr

theorem touches_switchTo (s : Sched) (next : Option TaskId) :
    Touches (fun y => s.main = some y ∨ next = some y) s (switchTo s next) := by
  cases next with
  | none => exact (touches_switchToMain s).mono fun y => .inl
  | some t => exact touches_contextSwitch s t

theorem touches_schedulerStep (hs : schedulerStep s = some s') :
    Touches (fun y => s.main = some y ∨ nextToRun s = some y)
        (s.setSleepUntil s'.sleepUntil) s' ∧
      (s.current = s.main ∨ nextToRun s = none → s'.sleepUntil = s.sleepUntil) := by
  obtain ⟨-,rfl | ⟨n,hn,rfl⟩⟩ := schedulerStep_cases hs
  · exact ⟨Touches.refl _ _,fun _ => rfl⟩
  · have ht := touches_contextSwitch
      (s.setSleepUntil (if s.current = s.main then s.sleepUntil else none)) n
    rw [ht.sleepUntil,hn]
    exact ⟨ht,fun hc => if_pos (hc.resolve_right (by simp))⟩

def Busy (s : Sched) (y : TaskId) : Prop :=
  s.main = some y ∨ s.current = some y ∨ nextToRun s = some y

theorem Alike.busy (h : Alike s s') : Busy s' = Busy s := by
  funext y
  rw [Busy,Busy,h.main,h.current,h.nextToRun]

theorem Touches.giveUp (hc : s.current = some c) (h : Touches (· = c) s s') (hn : next = none ∨
    next = nextToRun s) : Touches (Busy s) s (switchTo s' next) := by
  refine (h.mono fun y hy => .inr (.inl (hc.trans (congrArg some hy.symm)))).trans
    ((touches_switchTo s' next).mono fun y hy => ?_)
  rcases hy with hy | hy
  · exact .inl (h.main.symm.trans hy)
  · rcases hn with rfl | rfl
    · simp at hy
    · exact .inr (.inr hy)

theorem touches_taskYield (s : Sched) : Touches (Busy s) s (taskYield s) := by
  refine (touches_lock s).trans ?_
  rw [taskYield,←(alike_lock s).busy]
  generalize schedulerLock s = s₁
  simp only
  split_ifs with hmain
  · refine (touches_unlock s₁).trans ?_
    rw [←(alike_unlock s₁).busy]
    have hmain : (schedulerUnlock s₁).current = (schedulerUnlock s₁).main := by
      rw [(alike_unlock s₁).current,(alike_unlock s₁).main,hmain]
    generalize schedulerUnlock s₁ = s₂ at hmain
    cases hs : schedulerStep s₂ with
    | none => exact Touches.refl _ s₂
    | some s₃ =>
      obtain ⟨ht,hsleep⟩ := touches_schedulerStep hs
      rw [hsleep (.inl hmain)] at ht
      exact ht.mono fun y hy => hy.imp_right .inr
  · cases hc : s₁.current with
    | none => exact touches_unlock s₁
    | some c =>
      simp only
      split_ifs with hr
      · have hready := (touches_setContext s₁ c .yield).trans
          (touches_setState _ c (x:=.ready))
        exact Touches.giveUp hc (hready.trans (touches_taskAddToReady _ c))
          (.inr (nextToRun_parked s₁ c _ _))
      · exact touches_unlock s₁

theorem touches_taskReturn : Touches (Busy s) s (taskReturn s) := by
  rw [taskReturn]
  cases hc : s.current with
  | none => exact Touches.refl _ s
  | some c =>
    simp only
    split_ifs
    · exact Touches.refl _ s
    · exact Touches.giveUp hc (touches_setState s c) (.inl rfl)

theorem touches_taskSleep (hc : s.current = some c) (hm : some c ≠ s.main) (ticks : UInt32) :
    Touches (Busy s) s (taskSleep s ticks) := by
  rw [taskSleep,hc]
  simp only [if_neg hm]
  exact Touches.giveUp hc (((touches_modify s c).trans
    (touches_taskListAdd _ c .blocked)).trans
    (touches_setContext _ c .sleep)) (.inl rfl)

theorem touches_taskSuspend : Touches (fun y => Busy s y ∨ o = some y) s (taskSuspend s o) := by
  cases o with
  | none => exact Touches.refl _ s
  | some t =>
    refine (touches_lock s).trans ?_
    rw [taskSuspend,←(alike_lock s).busy]
    generalize schedulerLock s = s₁
    have hone {s₂ : Sched} (h : Touches (· = t) s₁ s₂) :
        Touches (fun y => Busy s₁ y ∨ some t = some y) s₁ (schedulerUnlock s₂) :=
      (h.named.mono fun y => .inr).trans (touches_unlock s₂)
    simp only
    split_ifs with hc
    · have hsusp := (touches_setContext s₁ t .suspend).trans
        (touches_setState _ t (x:=.suspended))
      exact (Touches.giveUp hc.symm hsusp (.inr (nextToRun_parked s₁ t _ _))).mono fun y => .inl
    · have hoff := touches_taskListRemove (p:=(· = t)) s₁ t
      cases s₁.state t with
      | ready => exact hone ((hoff _).trans (touches_setState _ t (x:=.suspended)))
      | blocked =>
        exact hone (((hoff .blocked).trans (touches_modify _ t)).trans
          (touches_setState _ t (x:=.suspended)))
      | _ => exact hone (Touches.refl _ s₁)

theorem touches_taskResume : Touches (fun y => o = some y ∧ s.state y = .suspended) s
    (taskResume s o) := by
  refine (touches_lock s).trans ?_
  cases o with
  | none => exact touches_unlock _
  | some t =>
    rw [taskResume,←(alike_lock s).state]
    generalize schedulerLock s = s₁
    split_ifs with hs
    · refine Touches.trans (Touches.mono (p:=(· = t)) ?_ ?_) (touches_unlock _)
      · exact (touches_setState s₁ t).trans (touches_taskAddToReady _ t)
      · rintro y rfl
        exact ⟨rfl,hs⟩
    · exact touches_unlock s₁

theorem touches_taskDelete (hs : taskDelete s o = some s') :
    Touches (fun y => o = some y) s s' := by
  cases o with
  | none => simp [taskDelete] at hs
  | some t =>
    rw [taskDelete] at hs
    split_ifs at hs with hc
    obtain ⟨s₁,hs₁,rfl⟩ := map_eq_some_iff.mp hs
    have h₁ : Touches (· = t) s s₁ := by
      cases hst : s.state t <;> rw [hst] at hs₁ <;> cases hs₁
      · exact touches_taskListRemove s t _
      · exact touches_taskListRemove s t _
      · exact Touches.refl _ s
      · exact Touches.refl _ s
    exact ((h₁.trans (touches_setState s₁ t)).trans (touches_taskListAdd _ t .free)).named

theorem touches_taskCreate : Touches (fun y => s.heads .free = some y) s (taskCreate s priority
    stackOk bootOk).1 := by
  rw [taskCreate]
  cases hf : s.heads .free with
  | none => exact Touches.refl _ s
  | some t =>
    have htake (p : Priority) : Touches (· = t) s (takeFree s t p) :=
      (touches_taskListRemove s t .free).trans (touches_modify _ t)
    simp only
    split_ifs with hp hok
    · exact (((htake _).trans (touches_setContext _ t .entry)).trans
        (touches_taskAddToReady _ t)).named
    · exact ((htake _).trans (touches_taskListAdd _ t .free)).named
    · exact Touches.refl _ s

theorem touches_wake : Touches (· = t) s (wake s t) :=
  ((touches_taskListRemove s t .blocked).trans
    (touches_setState _ t)).trans (touches_taskAddToReady _ t)

def Sched.woken (s : Sched) (t : TaskId) : TaskState × Priority × UInt32 :=
  (.ready,s.priority t,(s.tasks t).wakeTime)

theorem wake_data : (wake s t).data t = s.woken t := by
  have hp : (wake s t).priority t = s.priority t := by simp [wake]
  have hw : ((wake s t).tasks t).wakeTime = (s.tasks t).wakeTime := by
    simp [wake,taskAddToReady,setState_tasks,taskListAdd_tasks,taskListRemove_tasks]
  rw [Sched.data,hp,hw]
  simp [wake,Sched.woken]

section

variable (s)

theorem wakeIfDue_data (t y : TaskId) : (wakeIfDue s t).data y = if y = t ∧ (s.tasks y).wakeTime
    ≤ s.tickCount then s.woken y else s.data y := by
  rw [wakeIfDue]
  by_cases hy : y = t
  · subst hy
    split_ifs with h₁ h₂ h₂
    · exact wake_data
    · exact absurd ⟨rfl,h₁⟩ h₂
    · exact absurd h₂.2 h₁
    · rfl
  · simp only [hy,false_and,if_false]
    split_ifs
    · exact touches_wake.data y hy
    · rfl

theorem touches_wakeIfDue (t : TaskId) : Touches (· = t) s (wakeIfDue s t) := by
  rw [wakeIfDue]
  split_ifs
  · exact touches_wake
  · exact Touches.refl _ s

theorem touches_wakeAll (ts : List TaskId) : Touches (· ∈ ts) s (ts.foldl wakeIfDue s) := by
  induction ts generalizing s with
  | nil => exact Touches.refl _ s
  | cons t ts ih =>
    exact ((touches_wakeIfDue s t).mono fun y hy => hy▸List.mem_cons_self).trans
      ((ih _).mono fun y hy => List.mem_cons_of_mem t hy)

theorem wakeAll_data (ts : List TaskId) (y : TaskId) : (ts.foldl wakeIfDue s).data y = if y ∈ ts
    ∧ (s.tasks y).wakeTime ≤ s.tickCount then s.woken y else s.data y := by
  induction ts generalizing s with
  | nil => simp
  | cons t ts ih =>
    have ht := touches_wakeIfDue s t
    have hd := wakeIfDue_data s t y
    have hw : ((wakeIfDue s t).tasks y).wakeTime = (s.tasks y).wakeTime := by
      have := congrArg (·.2.2) hd
      split_ifs at this <;> exact this
    have hp : (wakeIfDue s t).priority y = s.priority y := by
      have := congrArg (·.2.1) hd
      split_ifs at this <;> exact this
    rw [List.foldl_cons,ih,hw,ht.tickCount,hd,Sched.woken,hw,hp,←Sched.woken]
    by_cases hdue : (s.tasks y).wakeTime ≤ s.tickCount
    · by_cases hy : y = t
      · subst hy
        simp only [hdue,List.mem_cons,true_or,and_self,if_true,ite_self]
      · simp only [hy,List.mem_cons,false_or,false_and,if_false]
    · simp only [hdue,and_false,if_false]

end

/-- All that `scheduler_tick` does. -/
structure Ticked (live : TaskId → Bool) (s s' : Sched) : Prop where
  data : ∀ y, s'.data y =
    if home s live y = some .blocked ∧ (s.tasks y).wakeTime ≤ s.tickCount+1 then s.woken y
    else s.data y
  tickCount : s'.tickCount = s.tickCount+1
  nextWakeTick : s'.nextWakeTick = (queue s' .blocked).foldl (earlier s') 0xFFFFFFFF
  current : s'.current = s.current
  main : s'.main = s.main
  sleepUntil : s'.sleepUntil = s.sleepUntil
  lastSwitched : s.lastSwitched = none → s'.lastSwitched = none

theorem schedulerTick_spec (h : Steady s live lost) : Ticked live s (schedulerTick s) := by
  obtain ⟨hc,hm⟩ := schedulerTick_current s
  have hlock := touches_lock (p:=fun _ => False) s
  rw [schedulerTick] at hc hm ⊢
  set s₁ := { schedulerLock s with tickCount := (schedulerLock s).tickCount+1 } with hs₁
  have ha : Alike s s₁ := (alike_lock s).trans ⟨rfl,rfl,rfl,rfl,rfl,rfl,rfl,rfl⟩
  have htick : s₁.tickCount = s.tickCount+1 := by rw [hs₁,hlock.tickCount]
  have hdata (y : TaskId) : s₁.data y = s.data y := hlock.data y id
  have hs := ha.steady h
  obtain ⟨hloop,-⟩ := wakeLoop_spec hs
  have hmem := (hs.threads.queue_spec .blocked).2
  have ht := hloop▸touches_wakeAll s₁ (queue s₁ .blocked)
  have hall := hloop▸wakeAll_data s₁ (queue s₁ .blocked)
  set s₂ := schedulerUpdateNextWakeTick (wakeLoop s₁) with hs₂
  have hun := touches_unlock (p:=fun _ => False) s₂
  have hau := alike_unlock s₂
  refine ⟨fun y => ?_,?_,?_,hc,hm,?_,?_⟩
  · have hw : (s₁.tasks y).wakeTime = (s.tasks y).wakeTime := congrArg (·.2.2) (hdata y)
    have hp : s₁.priority y = s.priority y := congrArg (·.2.1) (hdata y)
    refine (hun.data y id).trans ((hall y).trans ?_)
    simp only [hmem,ha.home,hw,htick,hdata,Sched.woken,hp]
  · rw [hun.tickCount,hs₂]
    exact ht.tickCount.trans htick
  · have hearlier : earlier (schedulerUnlock s₂) = earlier s₂ := by
      funext bound y
      have hw : ((schedulerUnlock s₂).tasks y).wakeTime = (s₂.tasks y).wakeTime :=
        congrArg (·.2.2) (hun.data y id)
      rw [earlier,hw,←earlier]
    rw [hun.nextWakeTick,hearlier,queue,hau.next,hau.heads]
    rfl
  · exact hun.sleepUntil.trans (ht.sleepUntil.trans hlock.sleepUntil)
  · exact fun hn => hun.lastSwitched (ht.lastSwitched (hlock.lastSwitched hn))

section

def loopTick (s : Sched) : Option Sched :=
  match s.sleepUntil with
  | none => none
  | some bound => if s.tickCount < bound then some (schedulerTick s) else none

def tickOf (s : Sched) : Call → Option Sched
  | .tick => some (schedulerTick s)
  | .mainLoop => if s.current = s.main then loopTick s else none
  | .sleep ticks =>
    if s.current = s.main then loopTick (s.setSleepUntil (some (s.tickCount+ticks))) else none
  | _ => none

/-- The blocks that a call is about. -/
def Names (s : Sched) : Call → TaskId → Prop
  | .create _ _ _,y => s.heads .free = some y
  | .delete o,y => o = some y
  | .suspend o,y => o = some y
  | .resume o,y => o = some y ∧ s.state y = .suspended
  | _,_ => False

theorem loopTick_some (h : loopTick s = some s') : s' = schedulerTick s := by
  rw [loopTick] at h
  cases hu : s.sleepUntil with
  | none => simp [hu] at h
  | some bound =>
    simp only [hu] at h
    split_ifs at h
    exact (some.inj h).symm

theorem sleepTurn_eq : sleepTurn s = match loopTick s with
    | none => s.setSleepUntil none
    | some s₁ => (schedulerStep s₁).getD s₁ := by
  cases hu : s.sleepUntil with
  | none =>
    rw [sleepTurn,loopTick,hu]
    simp only [Sched.setSleepUntil]
    rw [←hu]
  | some bound =>
    simp only [sleepTurn,loopTick,hu]
    split_ifs <;> rfl

theorem taskSleep_main (h : Settled s live) (hc : s.current = s.main) (ticks : UInt32) :
    taskSleep s ticks = sleepTurn (s.setSleepUntil (some (s.tickCount+ticks))) := by
  obtain ⟨m,hm,-⟩ := h.main
  rw [taskSleep,hc,hm]
  simp

theorem touches_step : Touches (Busy s) (s.setSleepUntil ((schedulerStep s).getD s).sleepUntil)
    ((schedulerStep s).getD s) ∧ (s.current = s.main ∨ nextToRun s = none → ((schedulerStep
    s).getD s).sleepUntil = s.sleepUntil) := by
  cases hs : schedulerStep s with
  | none => exact ⟨Touches.refl _ s,fun _ => rfl⟩
  | some s' =>
    obtain ⟨ht,hsleep⟩ := touches_schedulerStep hs
    exact ⟨ht.mono fun y hy => hy.imp_right .inr,hsleep⟩

theorem sleepTurn_of_none (h : loopTick s = none) : sleepTurn s = s.setSleepUntil none := by
  rw [sleepTurn_eq,h]

theorem sleepTurn_of_some (h : loopTick s = some s') :
    sleepTurn s = (schedulerStep s').getD s' := by
  rw [sleepTurn_eq,h]

/-- Without a tick; `FromMain` names the tasks that spare main's sleep. -/
def Leaves (w : World) (c : Call) (s' : Sched) : Prop :=
  Touches (fun y => Busy w.sched y ∨ Names w.sched c y) (w.sched.setSleepUntil s'.sleepUntil) s' ∧
    (w.sched.current ≠ w.sched.main → FromMain w c → s'.sleepUntil = w.sched.sleepUntil)

variable {w : World} {c : Call}

theorem Touches.leaves (h : Touches (fun y => Busy w.sched y ∨ Names w.sched c y) w.sched s') :
    Leaves w c s' := by
  refine ⟨?_,fun _ _ => h.sleepUntil⟩
  rw [h.sleepUntil]
  exact h

theorem leaves_delete : Leaves w (.delete o) (perform w (.delete o)).sched := by
  cases o with
  | none => exact (Touches.refl _ _).leaves
  | some t =>
    rw [perform,deleteTask]
    cases hs : taskDelete w.sched (some t) with
    | none => exact (Touches.refl _ _).leaves
    | some s => exact ((touches_taskDelete hs).mono fun y => .inr).leaves

theorem leaves_sleep (h : Steady w.sched w.live lost) (hn : tickOf w.sched (.sleep ticks) =
    none) : Leaves w (.sleep ticks) (perform w (.sleep ticks)).sched := by
  rw [perform]
  by_cases hc : w.sched.current = w.sched.main
  · rw [tickOf,if_pos hc] at hn
    rw [taskSleep_main h.toSettled hc,sleepTurn_of_none hn]
    exact ⟨Touches.refl _ _,fun hne => absurd hc hne⟩
  · obtain ⟨t,ht,-⟩ := h.current.resolve_left hc
    exact ((touches_taskSleep ht (ht▸hc) ticks).mono fun y => .inl).leaves

theorem leaves_mainLoop (hn : tickOf w.sched .mainLoop = none) :
    Leaves w .mainLoop (perform w .mainLoop).sched := by
  rw [perform]
  split_ifs with hc
  · rw [tickOf,if_pos hc] at hn
    rw [sleepTurn_of_none hn]
    exact ⟨Touches.refl _ _,fun hne => absurd hc hne⟩
  · exact (Touches.refl _ _).leaves

section

variable (h : Steady w.sched w.live lost)
include h

theorem leaves_start : Leaves w .start (perform w .start).sched := by
  rw [perform,schedulerStart]
  split_ifs with hst
  · exact (Touches.refl _ _).leaves
  · have hc := h.starting (by simpa using hst)
    cases hs : schedulerStep { w.sched with started := true } with
    | none => exact (Touches.refl _ _).leaves
    | some s =>
      obtain ⟨ht,-⟩ := touches_schedulerStep hs
      exact ⟨⟨fun y hy => ht.data y fun hb => hy (.inl (hb.imp_right .inr)),ht.main,
        ht.tickCount,ht.nextWakeTick,rfl,ht.lastSwitched⟩,fun hne => absurd hc hne⟩

theorem perform_touches (hn : tickOf w.sched c = none) : Leaves w c (perform w c).sched := by
  cases c with
  | create priority stackOk bootOk =>
    exact (touches_taskCreate.mono fun y => .inr).leaves
  | delete o => exact leaves_delete
  | yield => exact ((touches_taskYield _).mono fun y => .inl).leaves
  | sleep ticks => exact leaves_sleep h hn
  | mainLoop => exact leaves_mainLoop hn
  | suspend o => exact touches_taskSuspend.leaves
  | resume o => exact (touches_taskResume.mono fun y => .inr).leaves
  | tick => simp [tickOf] at hn
  | step =>
    obtain ⟨ht,hsleep⟩ := touches_step
    exact ⟨ht.mono fun y => .inl,fun _ hf => hsleep hf⟩
  | start => exact leaves_start h
  | ret => exact (touches_taskReturn.mono fun y => .inl).leaves
  | _ => exact Touches.leaves ⟨fun _ _ => rfl,rfl,rfl,rfl,rfl,id⟩

theorem perform_ticks (hn : tickOf w.sched c = some s₁) : ∃ u, s₁ = schedulerTick
    (w.sched.setSleepUntil u) ∧ Touches (Busy s₁) (s₁.setSleepUntil (perform w
    c).sched.sleepUntil) (perform w c).sched := by
  cases c with
  | tick =>
    obtain rfl := some.inj hn
    exact ⟨w.sched.sleepUntil,rfl,Touches.refl _ _⟩
  | sleep ticks =>
    rw [tickOf] at hn
    split_ifs at hn with hc
    refine ⟨_,loopTick_some hn,?_⟩
    rw [perform,taskSleep_main h.toSettled hc,sleepTurn_of_some hn]
    exact touches_step.1
  | mainLoop =>
    rw [tickOf] at hn
    split_ifs at hn with hc
    refine ⟨w.sched.sleepUntil,loopTick_some hn,?_⟩
    rw [perform,if_pos hc,sleepTurn_of_some hn]
    exact touches_step.1
  | _ => simp [tickOf] at hn

end

end

end TinyDeviceOs.Scheduler
