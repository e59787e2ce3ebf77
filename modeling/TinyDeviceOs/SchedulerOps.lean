import TinyDeviceOs.SchedulerLists

/-! What every operation of the scheduler keeps. A task that gives up the processor leaves the
scheduler `Parked` until the switch. -/
namespace TinyDeviceOs.Scheduler

open LinkedList Option

variable {s s' s'' : Sched} {live live' : TaskId → Bool}
  {lost : TaskId → Prop} {t c : TaskId} {q : Option ListId}

structure Settled (s : Sched) (live : TaskId → Bool) : Prop where
  threads : Threads s (home s live)
  main : ∃ m, s.main = some m ∧ live m = false ∧ s.state m = .running

structure Sound (s : Sched) (live : TaskId → Bool) : Prop extends Settled s live where
  current : s.current = s.main ∨ ∃ c, s.current = some c ∧ live c = true ∧ s.state c = .running
  alone : ∀ t, some t ≠ s.main → s.state t = .running → s.current = some t
  starting : s.started = false → s.current = s.main

/-- Nobody runs but main and the `lost` tasks. -/
structure Parked (s : Sched) (live : TaskId → Bool) (lost : TaskId → Prop) : Prop extends
    Settled s live where
  quiet : ∀ t, some t ≠ s.main → s.state t = .running → lost t

/-- `Sound` but for the tasks `lost` by calling `scheduler_step`. -/
structure Steady (s : Sched) (live : TaskId → Bool) (lost : TaskId → Prop) : Prop extends
    Settled s live where
  current : s.current = s.main ∨ ∃ c, s.current = some c ∧ live c = true ∧ s.state c = .running
  alone : ∀ t, some t ≠ s.main → s.state t = .running → s.current = some t ∨ lost t
  starting : s.started = false → s.current = s.main

theorem sound_iff : Sound s live ↔ Steady s live fun _ => False := by
  constructor
  · intro h
    exact ⟨h.toSettled,h.current,fun t ht hr => .inl (h.alone t ht hr),h.starting⟩
  · intro h
    exact ⟨h.toSettled,h.current,fun t ht hr => (h.alone t ht hr).resolve_right id,h.starting⟩

theorem Settled.ne_main (h : Settled s live) (ht : live t = true) : some t ≠ s.main := by
  obtain ⟨m,hm,hl,-⟩ := h.main
  intro e
  obtain rfl := some.inj (e.trans hm)
  simp [ht] at hl

theorem Settled.main_running (h : Settled s live) (ht : some t = s.main) :
    s.state t = .running := by
  obtain ⟨m,hm,-,hr⟩ := h.main
  obtain rfl := some.inj (ht.trans hm)
  exact hr

structure Alike (s s' : Sched) : Prop where
  next : s'.next = s.next
  prev : s'.prev = s.prev
  heads : s'.heads = s.heads
  state : s'.state = s.state
  priority : s'.priority = s.priority
  main : s'.main = s.main
  current : s'.current = s.current
  started : s'.started = s.started

section

variable (h : Alike s s')
include h

theorem Alike.trans (h' : Alike s' s'') : Alike s s'' :=
  ⟨h'.next.trans h.next,h'.prev.trans h.prev,h'.heads.trans h.heads,h'.state.trans h.state,
    h'.priority.trans h.priority,h'.main.trans h.main,h'.current.trans h.current,
    h'.started.trans h.started⟩

theorem Alike.home : home s' live = home s live := by
  funext t
  exact home_congr h.main (congrFun h.state t) (congrFun h.priority t) rfl

theorem Alike.threads (ht : Threads s (Scheduler.home s live)) : Threads s' (Scheduler.home s'
    live) := by
  rw [Threads,h.next,h.prev,h.heads,h.home]
  exact ht

theorem Alike.steady (hs : Steady s live lost) : Steady s' live lost := by
  refine ⟨⟨h.threads hs.threads,?_⟩,?_,?_,?_⟩
  · rw [h.main,h.state]
    exact hs.main
  · rw [h.main,h.current,h.state]
    exact hs.current
  · rw [h.main,h.current,h.state]
    exact hs.alone
  · rw [h.main,h.current,h.started]
    exact hs.starting

theorem Alike.nextToRun : nextToRun s' = nextToRun s := by
  rw [Scheduler.nextToRun,Scheduler.nextToRun,taskGetHighestReady,taskGetHighestReady,h.heads,
    h.priority]

end

theorem alike_refl : Alike s s := ⟨rfl,rfl,rfl,rfl,rfl,rfl,rfl,rfl⟩

theorem alike_lock (s : Sched) : Alike s (schedulerLock s) := by
  rw [schedulerLock]
  split_ifs
  · exact alike_refl
  · exact ⟨rfl,rfl,rfl,rfl,rfl,rfl,rfl,rfl⟩

theorem alike_unlock (s : Sched) : Alike s (schedulerUnlock s) := by
  rw [schedulerUnlock]
  split_ifs
  · exact ⟨rfl,rfl,rfl,rfl,rfl,rfl,rfl,rfl⟩
  · exact alike_refl

theorem alike_modify (hf : ∀ b, (f b).next = b.next ∧ (f b).prev = b.prev ∧ (f b).state =
    b.state ∧ (f b).priority = b.priority) : Alike s (s.modify t f) := by
  have hfield {β : Type} (g : Tcb → β) (hg : ∀ b, g (f b) = g b) (y : TaskId) :
      g ((s.modify t f).tasks y) = g (s.tasks y) := by
    rw [modify_tasks]
    split_ifs
    · exact hg _
    · rfl
  exact ⟨funext (hfield Tcb.next fun b => (hf b).1),funext (hfield Tcb.prev fun b => (hf b).2.1),
    rfl,funext (hfield Tcb.state fun b => (hf b).2.2.1),
    funext (hfield Tcb.priority fun b => (hf b).2.2.2),rfl,rfl,rfl⟩

theorem alike_setSleepUntil (s : Sched) (bound : Option UInt32) :
    Alike s (s.setSleepUntil bound) :=
  ⟨rfl,rfl,rfl,rfl,rfl,rfl,rfl,rfl⟩

theorem alike_setContext (s : Sched) (t : TaskId) (x : Context) : Alike s (s.setContext t x) :=
  alike_modify fun _ => ⟨rfl,rfl,rfl,rfl⟩

theorem alike_setState (h : s.state t = x) : Alike s (s.setState t x) := by
  have hsame : s.setState t x = s := by
    subst h
    change { s with tasks := Function.update s.tasks t (s.tasks t) } = s
    rw [Function.update_eq_self]
  rw [hsame]
  exact alike_refl

theorem Settled.head_home (h : Settled s live) (ht : s.heads (.ready p) = some t) : home s live
    t = some (.ready p) :=
  h.threads.head_place ht

theorem nextToRun_head (h : nextToRun s = some t) : ∃ p, s.heads (.ready p) = some t := by
  obtain ⟨hh,-⟩ := filter_eq_some_iff.mp h
  obtain ⟨p,-,hp⟩ := List.exists_of_findSome?_eq_some hh
  exact ⟨p,hp⟩

theorem switchToMain_eq (hm : s.main = some m) : switchToMain s =
    { s with current := s.main, lastSwitched := none }.setState m .running := by
  have hat : s.modifyAt s.main (fun b => { b with state := .running }) = s.setState m .running := by
    rw [hm]
    rfl
  rw [switchToMain,hat]
  rfl

theorem switchToMain_steady (h : Parked s live lost) : Steady (switchToMain s) live lost := by
  obtain ⟨m,hm,hl,hr⟩ := h.main
  rw [switchToMain_eq hm]
  refine (alike_setState (s:={ s with current := s.main, lastSwitched := none }) hr).steady
    ⟨⟨h.threads,h.main⟩,.inl rfl,?_,fun _ => rfl⟩
  intro t ht hrun
  exact .inr (h.quiet t ht hrun)

theorem resumeTask_alike (h : s.state t = .running) : Alike s (resumeTask s t) := by
  rw [resumeTask]
  cases (s.tasks t).context with
  | entry => exact alike_refl
  | yield => exact alike_unlock s
  | sleep => exact alike_setState h
  | suspend => exact (alike_setState h).trans (alike_unlock _)

section

variable (h : Parked s live lost) (hst : s.started = true)
include h hst

theorem contextSwitch_steady (ht : home s live t = some (.ready p)) : Steady (contextSwitch s t)
    live lost := by
  obtain ⟨hne,hlive,hready,rfl⟩ := home_ready ht
  rw [contextSwitch,if_neg hne]
  refine (resumeTask_alike (by simp)).steady ?_
  set s₀ := (taskListRemove s (.ready (s.priority t)) t).setState t .running with hs₀
  have hk : Keeps t s s₀ := (keeps_taskListRemove s _ t t).trans (keeps_setState _ t .running)
  have hmain : home s₀ live t = none := by
    rw [home_live (hk.main▸hne) hlive]
    simp [hs₀]
  have hthreads : Threads s₀ (home s₀ live) :=
    ((h.threads.remove ht).setState .running).settle hk (fun _ _ => rfl) hmain
  obtain ⟨m,hm,hl,hr⟩ := h.main
  have hmt : t ≠ m := by
    rintro rfl
    exact hne hm.symm
  refine ⟨⟨hthreads,m,hk.main.trans hm,hl,(hk.state m hmt).trans hr⟩,
    .inr ⟨t,rfl,hlive,by simp⟩,?_,?_⟩
  · intro y hy hrun
    by_cases hty : t = y
    · exact .inl (congrArg some hty)
    · exact .inr (h.quiet y (hk.main▸hy) ((hk.state y hty).symm.trans hrun))
  · intro hf
    exact absurd (hk.started.symm.trans hf) (by simp [hst])

theorem switchTo_steady (hn : ∀ n, next = some n → ∃ p, home s live n = some (.ready p)) :
    Steady (switchTo s next) live lost := by
  cases next with
  | none => exact switchToMain_steady h
  | some n =>
    obtain ⟨p,hp⟩ := hn n rfl
    exact contextSwitch_steady h hst hp

end

theorem Steady.parked (h : Steady s live lost) (hc : s.current = s.main ∨ ∀ t, lost t) :
    Parked s live lost := by
  refine ⟨h.toSettled,fun t ht hr => ?_⟩
  rcases hc with hc | hc
  · exact (h.alone t ht hr).resolve_left fun e => ht (e.symm.trans hc)
  · exact hc t

theorem schedulerStep_cases (hs : schedulerStep s = some s') : s.started = true ∧
    (s' = s ∨ ∃ n, nextToRun s = some n ∧ s' = contextSwitch
      (s.setSleepUntil (if s.current = s.main then s.sleepUntil else none)) n) := by
  rw [schedulerStep] at hs
  by_cases hst : s.started = false
  · simp [hst] at hs
  rw [if_neg hst] at hs
  refine ⟨by simpa using hst,?_⟩
  cases hn : nextToRun s with
  | none =>
    rw [hn] at hs
    exact .inl (some.inj hs).symm
  | some n =>
    simp only [hn] at hs
    by_cases hlast : some n = s.lastSwitched
    · rw [if_pos hlast] at hs
      exact .inl (some.inj hs).symm
    · rw [if_neg hlast] at hs
      exact .inr ⟨n,rfl,(some.inj hs).symm⟩

section

variable (h : Steady s live lost)
include h

theorem schedulerStep_steady (hc : s.current = s.main ∨ ∀ t, lost t) (hs : schedulerStep s =
    some s') : Steady s' live lost := by
  obtain ⟨hst,rfl | ⟨n,hn,rfl⟩⟩ := schedulerStep_cases hs
  · exact h
  · obtain ⟨p,hp⟩ := nextToRun_head hn
    have hpk := h.parked hc
    exact contextSwitch_steady ⟨⟨hpk.threads,hpk.main⟩,hpk.quiet⟩ hst (h.head_home hp)

theorem schedulerStep_getD_steady (hc : s.current = s.main ∨ ∀ t, lost t) : Steady
    ((schedulerStep s).getD s) live lost := by
  cases hs : schedulerStep s with
  | none => exact h
  | some s' => exact schedulerStep_steady h hc hs

theorem schedulerStart_steady (hs : schedulerStart s = some s') : Steady s' live lost := by
  rw [schedulerStart] at hs
  split_ifs at hs with hst
  have hc := h.starting (by simpa using hst)
  refine schedulerStep_steady (s:={ s with started := true }) ?_ (.inl hc) hs
  exact ⟨⟨h.threads,h.main⟩,h.current,h.alone,fun hf => absurd hf (by simp)⟩

end

@[simp] theorem taskAddToReady_state : (taskAddToReady s t).state y = if t = y then .ready else
    s.state y := by
  simp [taskAddToReady]

@[simp] theorem taskAddToReady_priority : (taskAddToReady s t).priority y = s.priority y := by
  simp [taskAddToReady]

section

variable (h : Steady s live lost) (hm : some t ≠ s.main)
include h hm

theorem Steady.ne_current (ht : s.state t ≠ .running) : some t ≠ s.current := by
  intro e
  rcases h.current with hc | ⟨c,hc,-,hr⟩
  · exact hm (e.trans hc)
  · obtain rfl := some.inj (e.trans hc)
    exact ht hr

theorem Steady.ne_current_of_free (hl : live t = false) : some t ≠ s.current := by
  intro e
  rcases h.current with hc | ⟨c,hc,hlc,-⟩
  · exact hm (e.trans hc)
  · obtain rfl := some.inj (e.trans hc)
    simp [hl] at hlc

end

theorem Settled.main_of_keeps (h : Settled s live) (hm : some t ≠ s.main) (hk : Keeps t s s')
    (hl : ∀ y, t ≠ y → live' y = live y) :
    ∃ m, s'.main = some m ∧ live' m = false ∧ s'.state m = .running := by
  obtain ⟨m,hmain,hlm,hr⟩ := h.main
  have hne : t ≠ m := fun e => hm (e▸hmain.symm)
  exact ⟨m,hk.main.trans hmain,(hl m hne).trans hlm,(hk.state m hne).trans hr⟩

section

variable (h : Steady s live lost)
include h

/-- A block that does not run is moved; whoever runs goes on. -/
theorem Steady.change (hm : some t ≠ s.main) (hc : some t ≠ s.current) (hk : Keeps t s s') (hth
    : Threads s' fun y => if t = y then q else home s live y) (hl : ∀ y, t ≠ y → live' y = live
    y) (hq : home s' live' t = q) (hrun : s'.state t ≠ .running) : Steady s' live' lost := by
  refine ⟨⟨hth.settle hk hl hq,h.main_of_keeps hm hk hl⟩,?_,?_,?_⟩
  · rw [hk.current,hk.main]
    rcases h.current with hcm | ⟨c,hcc,hlc,hr⟩
    · exact .inl hcm
    · have hne : t ≠ c := fun e => hc (e▸hcc.symm)
      exact .inr ⟨c,hcc,(hl c hne).trans hlc,(hk.state c hne).trans hr⟩
  · intro y hy hr
    rw [hk.main] at hy
    rw [hk.current]
    by_cases hty : t = y
    · exact absurd (hty▸hr) hrun
    · exact h.alone y hy ((hk.state y hty).symm.trans hr)
  · rw [hk.started,hk.current,hk.main]
    exact h.starting

section

variable (hc : s.current = some c)
include hc

section

variable (hm : some c ≠ s.main)
include hm

theorem Steady.park (hk : Keeps c s s') (hth : Threads s' fun y => if c = y then q else home s
    live y) (hq : home s' live c = q) (hrun : s'.state c ≠ .running) : Parked s' live lost := by
  refine ⟨⟨hth.settle hk (fun _ _ => rfl) hq,h.main_of_keeps hm hk fun _ _ => rfl⟩,?_⟩
  intro y hy hr
  by_cases hcy : c = y
  · exact absurd (hcy▸hr) hrun
  · rw [hk.main] at hy
    refine (h.alone y hy ((hk.state y hcy).symm.trans hr)).resolve_left fun hcur => ?_
    exact hcy (some.inj (hc.symm.trans hcur))

theorem Steady.current_live : live c = true ∧ s.state c = .running ∧ home s live c = none := by
  rcases h.current with hcm | ⟨c',hcc,hl,hr⟩
  · exact absurd (hc.symm.trans hcm) hm
  · obtain rfl := some.inj (hc.symm.trans hcc)
    refine ⟨hl,hr,?_⟩
    rw [home_live hm hl,hr]

/-- The current task waits, and main or the next task goes on. -/
theorem Steady.giveUp (hk : Keeps c s s') (hth : Threads s' fun y => if c = y then q else home s
    live y) (hq : home s' live c = q) (hrun : s'.state c ≠ .running) (hn : next = none ∨ next =
    nextToRun s) : Steady (switchTo s' next) live lost := by
  have hst : s'.started = true := by
    rw [hk.started]
    by_contra hf
    exact hm (hc.symm.trans (h.starting (by simpa using hf)))
  refine switchTo_steady (h.park hc hm hk hth hq hrun) hst fun n hnext => ?_
  rcases hn with rfl | rfl
  · exact absurd hnext.symm (some_ne_none n)
  · obtain ⟨p,hp⟩ := nextToRun_head hnext
    have hhome := h.head_home hp
    have hne : c ≠ n := by
      rintro rfl
      rw [(h.current_live hc hm).2.2] at hhome
      exact absurd hhome.symm (some_ne_none _)
    exact ⟨p,(hk.home_eq (fun _ _ => rfl) hne).trans hhome⟩

end

end

end

theorem nextToRun_congr (hh : s'.heads = s.heads) (hp : ∀ y, s'.priority y = s.priority y) :
    nextToRun s' = nextToRun s := by
  simp only [nextToRun,taskGetHighestReady,hh,hp]

theorem nextToRun_parked (s : Sched) (t : TaskId) (x : Context) (y : TaskState) :
    nextToRun ((s.setContext t x).setState t y) = nextToRun s := by
  refine nextToRun_congr rfl fun z => ?_
  rw [setState_priority,(alike_setContext s t x).priority]

theorem taskYield_steady (h : Steady s live lost) : Steady (taskYield s) live lost := by
  have h := (alike_lock s).steady h
  rw [taskYield]
  generalize schedulerLock s = s₁ at h
  simp only
  split_ifs with hmain
  · exact schedulerStep_getD_steady ((alike_unlock s₁).steady h)
      (.inl (by rw [(alike_unlock s₁).current,(alike_unlock s₁).main,hmain]))
  · cases hc : s₁.current with
    | none => exact (alike_unlock s₁).steady h
    | some c =>
      have hm : some c ≠ s₁.main := hc▸hmain
      obtain ⟨hl,hr,hhome⟩ := h.current_live hc hm
      simp only [hr,if_true]
      set s₂ := (s₁.setContext c .yield).setState c .ready with hs₂
      have hk₂ : Keeps c s₁ s₂ := (keeps_modify s₁ c _).trans (keeps_setState _ c .ready)
      have hk := hk₂.trans (keeps_taskAddToReady s₂ c)
      refine h.giveUp hc hm hk
        (((h.threads.off hhome).setContext .yield).setState .ready).addToReady ?_ (by simp)
        (.inr (nextToRun_parked s₁ c _ _))
      rw [home_live (hk.main▸hm) hl]
      simp [hs₂]

theorem taskReturn_steady (h : Steady s live lost) : Steady (taskReturn s) live lost := by
  rw [taskReturn]
  cases hc : s.current with
  | none => exact h
  | some c =>
    simp only
    split_ifs with hm
    · exact h
    · obtain ⟨hl,-,hhome⟩ := h.current_live hc hm
      have hk := keeps_setState s c .terminated
      refine h.giveUp hc hm hk ((h.threads.off hhome).setState .terminated) ?_ (by simp)
        (.inl rfl)
      rw [home_live (hk.main▸hm) hl]
      simp

theorem keeps_wake (s : Sched) (t : TaskId) : Keeps t s (wake s t) :=
  ((keeps_taskListRemove s .blocked t t).trans (keeps_setState _ t .ready)).trans
    (keeps_taskAddToReady _ t)

theorem wake_steady (h : Steady s live lost) (ht : home s live t = some .blocked) :
    Steady (wake s t) live lost := by
  obtain ⟨hm,hl,hs⟩ := home_blocked ht
  have hk := keeps_wake s t
  refine h.change hm (h.ne_current hm (by simp [hs])) hk
    ((h.threads.remove ht).setState .ready).addToReady (fun _ _ => rfl) ?_ (by simp [wake])
  rw [home_live (hk.main▸hm) hl]
  simp [wake]

theorem wake_next (hy : t ≠ y) (hp : s.prev t ≠ some y) : (wake s t).next y = s.next y := by
  simp only [wake,taskAddToReady,Sched.next,setState_tasks,taskListAdd_tasks,taskListRemove_tasks,
    if_neg hy,if_neg hp]

theorem wakeIfDue_step (h : Steady s live lost ∧ ∀ y ∈ x::xs, home s live y = some .blocked) (hp :
    Path s.next (some x) (x::xs)) (hd : (x::xs).Nodup) : (Steady (wakeIfDue s x) live lost ∧ ∀
    y ∈ xs, home (wakeIfDue s x) live y = some .blocked) ∧ ∀ y ∈ xs, (wakeIfDue s x).next y =
    s.next y := by
  obtain ⟨hs,hb⟩ := h
  obtain ⟨hx,htail⟩ := List.forall_mem_cons.mp hb
  have hfresh := (List.nodup_cons.mp hd).1
  have hne {y : TaskId} (hy : y ∈ xs) : x ≠ y := fun e => hfresh (e▸hy)
  rw [wakeIfDue]
  split_ifs
  · refine ⟨⟨wake_steady hs hx,fun y hy => ?_⟩,fun y hy => wake_next (hne hy) fun hprev => ?_⟩
    · exact ((keeps_wake s x).home_eq (fun _ _ => rfl) (hne hy)).trans (htail y hy)
    · exact hfresh (hp.2.next_mem hy (hs.threads.next_prev hx hprev))
  · exact ⟨⟨hs,htail⟩,fun _ _ => rfl⟩

/-- The tick's loop visits every blocked task once. -/
theorem wakeLoop_spec (h : Steady s live lost) :
    wakeLoop s = (queue s .blocked).foldl wakeIfDue s ∧ Steady (wakeLoop s) live lost := by
  obtain ⟨hl,hm⟩ := h.threads.queue_spec .blocked
  have hlen : (queue s .blocked).length ≤ maxTasks := by
    simpa using hl.nodup.length_le_card
  obtain ⟨heq,hinv⟩ := forEach_eq_foldl
    (fun s xs => Steady s live lost ∧ ∀ y ∈ xs, home s live y = some .blocked)
    (fun s x xs hs hp hd => wakeIfDue_step hs hp hd) ⟨h,fun y hy => (hm y).mp hy⟩
    (Segment.path hl) hl.nodup hlen
  rw [wakeLoop,heq]
  exact ⟨rfl,hinv.1⟩

theorem schedulerTick_steady (h : Steady s live lost) : Steady (schedulerTick s) live lost := by
  have h₁ := (alike_lock s).steady h
  rw [schedulerTick]
  generalize schedulerLock s = s₁ at h₁
  have htick : Alike s₁ { s₁ with tickCount := s₁.tickCount+1 } := ⟨rfl,rfl,rfl,rfl,rfl,rfl,rfl,rfl⟩
  obtain ⟨-,hloop⟩ := wakeLoop_spec (htick.steady h₁)
  refine (alike_unlock _).steady (Alike.steady ?_ hloop)
  exact ⟨rfl,rfl,rfl,rfl,rfl,rfl,rfl,rfl⟩

theorem schedulerTick_current (s : Sched) :
    (schedulerTick s).current = s.current ∧ (schedulerTick s).main = s.main := by
  have hbody (s : Sched) (t : TaskId) :
      (wakeIfDue s t).current = s.current ∧ (wakeIfDue s t).main = s.main := by
    rw [wakeIfDue]
    split_ifs
    · exact ⟨(keeps_wake s t).current,(keeps_wake s t).main⟩
    · exact ⟨rfl,rfl⟩
  have hloop (fuel : ℕ) (s : Sched) (o : Option TaskId) :
      (forEach Sched.next wakeIfDue fuel s o).current = s.current ∧
        (forEach Sched.next wakeIfDue fuel s o).main = s.main := by
    induction fuel generalizing s o with
    | zero => exact ⟨rfl,rfl⟩
    | succ fuel ih =>
      cases o with
      | none => exact ⟨rfl,rfl⟩
      | some t =>
        obtain ⟨hc,hm⟩ := ih (wakeIfDue s t) (s.next t)
        exact ⟨hc.trans (hbody s t).1,hm.trans (hbody s t).2⟩
  rw [schedulerTick,(alike_unlock _).current,(alike_unlock _).main]
  obtain ⟨hc,hm⟩ := hloop maxTasks { schedulerLock s with
    tickCount := (schedulerLock s).tickCount+1 } ((schedulerLock s).heads .blocked)
  exact ⟨hc.trans (alike_lock s).current,hm.trans (alike_lock s).main⟩

section

variable (h : Steady s live lost)
include h

theorem sleepTurn_steady (hc : s.current = s.main) :
    Steady (sleepTurn s) live lost := by
  rw [sleepTurn]
  cases s.sleepUntil with
  | none => exact h
  | some bound =>
    simp only
    split_ifs
    · obtain ⟨hcur,hmain⟩ := schedulerTick_current s
      exact schedulerStep_getD_steady (schedulerTick_steady h) (.inl (by rw [hcur,hmain,hc]))
    · exact (alike_setSleepUntil s none).steady h

theorem taskSleep_steady (ticks : UInt32) :
    Steady (taskSleep s ticks) live lost := by
  rw [taskSleep]
  cases hc : s.current with
  | none => exact h
  | some c =>
    simp only
    split_ifs with hm
    · exact sleepTurn_steady ((alike_setSleepUntil s _).steady h) (hc.trans hm)
    · obtain ⟨hl,-,hhome⟩ := h.current_live hc hm
      set s₁ := s.modify c fun b => { b with
        sleepTicks := ticks
        wakeTime := s.tickCount+ticks
        state := .blocked } with hs₁
      have hstate : s₁.state c = .blocked := by
        rw [Sched.state,hs₁,modify_tasks,if_pos rfl]
      have ha := alike_setContext (taskListAdd s₁ .blocked c) c .sleep
      have hk : Keeps c s ((taskListAdd s₁ .blocked c).setContext c .sleep) :=
        ((keeps_modify s c _).trans (keeps_taskListAdd s₁ .blocked c c)).trans (keeps_modify _ c _)
      have hstate' : ((taskListAdd s₁ .blocked c).setContext c .sleep).state c = .blocked := by
        rw [ha.state,taskListAdd_state,hstate]
      have hth : Threads s₁ (off c (home s live)) :=
        (h.threads.off hhome).modify _ fun _ => ⟨rfl,rfl⟩
      refine h.giveUp hc hm hk ((hth.add .blocked).setContext .sleep) ?_ (by simp [hstate'])
        (.inl rfl)
      rw [home_live (hk.main▸hm) hl,hstate']

theorem Steady.suspend (hm : some t ≠ s.main) (hl : live t = true)
    (hs : s.state t ≠ .running) (hk : Keeps t s s') (hth : Threads s' (off t (home s live))) :
    Steady (s'.setState t .suspended) live lost := by
  have hk' := hk.trans (keeps_setState s' t .suspended)
  refine h.change hm (h.ne_current hm hs) hk' (hth.setState .suspended) (fun _ _ => rfl) ?_
    (by simp)
  rw [home_live (hk'.main▸hm) hl]
  simp

section

variable (ho : ∀ t, o = some t → some t = s.main ∨ live t = true)
include ho

theorem taskSuspend_steady (hself : o = s.current → o ≠ s.main) : Steady (taskSuspend s o) live
    lost := by
  cases o with
  | none => exact h
  | some t =>
    have ha := alike_lock s
    have h₁ := ha.steady h
    rw [←ha.main] at ho hself
    rw [←ha.current] at hself
    rw [taskSuspend]
    generalize schedulerLock s = s₁ at *
    simp only
    split_ifs with hc
    · have hm := hself hc
      obtain ⟨hl,-,hhome⟩ := h₁.current_live hc.symm hm
      set s₂ := (s₁.setContext t .suspend).setState t .suspended with hs₂
      have hk : Keeps t s₁ s₂ := (keeps_modify s₁ t _).trans (keeps_setState _ t .suspended)
      refine h₁.giveUp hc.symm hm hk
        (((h₁.threads.off hhome).setContext .suspend).setState .suspended) ?_ (by simp [hs₂])
        (.inr (nextToRun_parked s₁ t _ _))
      rw [home_live (hk.main▸hm) hl]
      simp [hs₂]
    · rcases ho t rfl with hm | hl
      · rw [h₁.main_running hm]
        exact (alike_unlock s₁).steady h₁
      · have hm := h₁.ne_main hl
        cases hs : s₁.state t with
        | ready =>
          have hhome : home s₁ live t = some (.ready (s₁.priority t)) := by rw [home_live hm hl,hs]
          exact (alike_unlock _).steady (h₁.suspend hm hl (by simp [hs])
            (keeps_taskListRemove s₁ _ t t) (h₁.threads.remove hhome))
        | blocked =>
          have hhome : home s₁ live t = some .blocked := by rw [home_live hm hl,hs]
          exact (alike_unlock _).steady (h₁.suspend hm hl (by simp [hs])
            ((keeps_taskListRemove s₁ .blocked t t).trans (keeps_modify _ t _))
            ((h₁.threads.remove hhome).modify _ fun _ => ⟨rfl,rfl⟩))
        | _ => exact (alike_unlock s₁).steady h₁

theorem taskResume_steady : Steady (taskResume s o) live lost := by
  have ha := alike_lock s
  have h₁ := ha.steady h
  rw [←ha.main] at ho
  cases o with
  | none => exact (alike_unlock _).steady h₁
  | some t =>
    rw [taskResume]
    generalize schedulerLock s = s₁ at *
    split_ifs with hs
    · have hm : some t ≠ s₁.main := by
        intro hm
        simp [h₁.main_running hm] at hs
      have hl := (ho t rfl).resolve_left hm
      have hhome : home s₁ live t = none := by rw [home_live hm hl,hs]
      have hk : Keeps t s₁ (taskAddToReady (s₁.setState t .ready) t) :=
        (keeps_setState s₁ t .ready).trans (keeps_taskAddToReady _ t)
      refine (alike_unlock _).steady (h₁.change hm (h₁.ne_current hm (by simp [hs])) hk
        ((h₁.threads.off hhome).setState .ready).addToReady (fun _ _ => rfl) ?_ (by simp))
      rw [home_live (hk.main▸hm) hl]
      simp
    · exact (alike_unlock s₁).steady h₁

end

end

section

variable (live)

def unmark (t y : TaskId) : Bool := if t = y then false else live y

def mark : Option TaskId → TaskId → Bool
  | none => live
  | some t => fun y => if t = y then true else live y

end

theorem Steady.free (h : Steady s live lost) (hm : some t ≠ s.main) (hc : some t ≠ s.current)
    (hk : Keeps t s s') (hth : Threads s' (off t (home s live))) :
    Steady (taskListAdd (s'.setState t .terminated) .free t) (unmark live t) lost := by
  have hk' := (hk.trans (keeps_setState s' t .terminated)).trans
    (keeps_taskListAdd _ .free t t)
  refine h.change hm hc hk' ((hth.setState .terminated).add .free) (fun y hy => if_neg hy) ?_
    (by simp)
  have hfree : unmark live t t = false := if_pos rfl
  rw [home,if_neg (hk'.main▸hm),if_pos hfree]

theorem taskDelete_steady (h : Steady s live lost) (ht : some t = s.main ∨ live t = true)
    (hs : taskDelete s (some t) = some s') : Steady s' (unmark live t) lost := by
  rw [taskDelete] at hs
  split_ifs at hs with hc
  have hm : some t ≠ s.main := by
    intro hm
    simp [h.main_running hm] at hs
  have hhome := home_live hm (ht.resolve_left hm)
  have hkeep : Keeps t s s := ⟨rfl,rfl,rfl,fun _ _ => rfl,fun _ _ => rfl⟩
  cases hst : s.state t <;> rw [hst] at hs hhome <;> cases hs
  · exact h.free hm hc (keeps_taskListRemove s _ t t) (h.threads.remove hhome)
  · exact h.free hm hc (keeps_taskListRemove s _ t t) (h.threads.remove hhome)
  · exact h.free hm hc hkeep (h.threads.off hhome)
  · exact h.free hm hc hkeep (h.threads.off hhome)

section

variable {p : Priority}

theorem keeps_takeFree (s : Sched) (t : TaskId) (p : Priority) : Keeps t s (takeFree s t p) :=
  (keeps_taskListRemove s .free t t).trans (keeps_modify _ t _)

theorem takeFree_state (s : Sched) (t : TaskId) (p : Priority) :
    (takeFree s t p).state t = .ready := by
  rw [Sched.state,takeFree,modify_tasks,if_pos rfl]
  rfl

theorem takeFree_priority (s : Sched) (t : TaskId) : (takeFree s t p).priority t = p := by
  rw [Sched.priority,takeFree,modify_tasks,if_pos rfl]
  rfl

section

variable (h : Threads s (home s live))
include h

section

variable (ht : home s live t = some .free)
include ht

theorem threads_takeFree : Threads (takeFree s t p) (off t (home s live)) :=
  (h.remove ht).modify _ fun _ => ⟨rfl,rfl⟩

structure Created (t : TaskId) (s : Sched) (live : TaskId → Bool) (r : Sched × Option TaskId) :
    Prop where
  free : home s live t = some .free
  keeps : Keeps t s r.1
  threads : Threads r.1 (home r.1 (mark live r.2))
  ready : r.1.state t = .ready
  handle : r.2 = none ∨ r.2 = some t

theorem created_ok : Created t s live (taskAddToReady ((takeFree s t p).setContext t .entry)
    t,some t) := by
  have hk := ((keeps_takeFree s t p).trans (keeps_modify _ t _)).trans
    (keeps_taskAddToReady ((takeFree s t p).setContext t .entry) t)
  have hth := ((threads_takeFree (p:=p) h ht).setContext (t:=t) .entry).addToReady
  refine ⟨ht,hk,hth.settle hk (fun y hy => if_neg hy) ?_,by simp,.inr rfl⟩
  rw [home_live (hk.main▸(home_free ht).1) (if_pos rfl)]
  simp

theorem created_fail : Created t s live (taskListAdd (takeFree s t p) .free t,none) := by
  obtain ⟨hm,hl⟩ := home_free ht
  have hk := (keeps_takeFree s t p).trans (keeps_taskListAdd _ .free t t)
  have hth := (threads_takeFree (p:=p) h ht).add .free
  refine ⟨ht,hk,hth.settle hk (fun _ _ => rfl) ?_,?_,.inl rfl⟩
  · rw [home,if_neg (hk.main▸hm),mark,if_pos hl]
  · rw [taskListAdd_state,takeFree_state]

end

theorem taskCreate_spec (priority : ℕ) (stackOk bootOk : Bool) : taskCreate s priority stackOk
    bootOk = (s,none) ∨ ∃ t, Created t s live (taskCreate s priority stackOk bootOk) := by
  rw [taskCreate]
  cases hf : s.heads .free with
  | none => exact .inl rfl
  | some t =>
    have ht := h.head_place hf
    simp only
    split_ifs
    · exact .inr ⟨t,created_ok h ht⟩
    · exact .inr ⟨t,created_fail h ht⟩
    · exact .inl rfl

end

end

theorem taskCreate_steady (h : Steady s live lost) (priority : ℕ) (stackOk bootOk : Bool) :
    Steady (taskCreate s priority stackOk bootOk).1
      (mark live (taskCreate s priority stackOk bootOk).2) lost := by
  rcases taskCreate_spec h.threads priority stackOk bootOk with
    hr | ⟨t,hfree,hk,hth,hready,hout⟩
  · rw [hr]
    exact h
  · obtain ⟨hm,hl⟩ := home_free hfree
    have hlive : ∀ y, t ≠ y → mark live (taskCreate s priority stackOk bootOk).2 y = live y := by
      intro y hy
      rcases hout with hout | hout
      · rw [hout,mark]
      · rw [hout]
        exact if_neg hy
    refine h.change hm (h.ne_current_of_free hm hl) hk (hth.place_congr fun y => ?_) hlive rfl
      (by simp [hready])
    split_ifs with hy
    · rw [hy]
    · exact (hk.home_eq hlive hy).symm

end TinyDeviceOs.Scheduler
