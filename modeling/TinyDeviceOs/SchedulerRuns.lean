import TinyDeviceOs.SchedulerOps

/-! Runs of the scheduler from `scheduler_init`. A call is made by whoever runs: main or the
current task. -/
namespace TinyDeviceOs.Scheduler

open LinkedList List

section

theorem threads_blank : Threads blank fun _ => none := by
  intro i
  exact ⟨[],rfl,fun y => by simp⟩

theorem threads_addAll (ts : List TaskId) (h : Threads s place) (hd : ts.Nodup)
    (hn : ∀ t ∈ ts, place t = none) :
    Threads (ts.foldl (fun s t => taskListAdd s .free t) s)
      fun y => if y ∈ ts then some .free else place y := by
  induction ts generalizing s place with
  | nil => exact h.place_congr fun y => by simp
  | cons t ts ih =>
    obtain ⟨ht,hd⟩ := nodup_cons.mp hd
    obtain ⟨hnt,hn⟩ := forall_mem_cons.mp hn
    refine (ih ((h.off hnt).add .free) hd fun y hy => ?_).place_congr fun y => ?_
    · have hne : t ≠ y := fun e => ht (e▸hy)
      rw [if_neg hne]
      exact hn y hy
    · by_cases hy : t = y
      · simp [hy]
      · simp [hy,Ne.symm hy]

theorem keeps_addAll (ts : List TaskId) (s : Sched) (x : TaskId) :
    Keeps x s (ts.foldl (fun s t => taskListAdd s .free t) s) ∧
      ∀ y, (ts.foldl (fun s t => taskListAdd s .free t) s).state y = s.state y := by
  induction ts generalizing s with
  | nil => exact ⟨⟨rfl,rfl,rfl,fun _ _ => rfl,fun _ _ => rfl⟩,fun _ => rfl⟩
  | cons t ts ih =>
    obtain ⟨hk,hst⟩ := ih (taskListAdd s .free t)
    exact ⟨(keeps_taskListAdd s .free t x).trans hk,fun y => (hst y).trans (by simp)⟩

theorem taskCreate_head (h : taskCreate s priority stackOk bootOk = (s',some t)) : ∃ hp :
    priority < 5, s'.heads (.ready ⟨priority,hp⟩) = some t := by
  rw [taskCreate] at h
  cases hf : s.heads .free with
  | none => simp [hf] at h
  | some x =>
    simp only [hf] at h
    split_ifs at h with hp hok
    · simp only [Prod.mk.injEq,Option.some.injEq] at h
      obtain ⟨rfl,rfl⟩ := h
      refine ⟨hp,?_⟩
      have hpr := (congrFun (alike_setContext (takeFree s x ⟨priority,hp⟩) x .entry).priority x).trans
        (takeFree_priority s x (p:=⟨priority,hp⟩))
      simp [taskAddToReady,Sched.setState,taskListAdd_heads,hpr]
    · simp at h
    · simp at h

theorem adoptMain_sound (h : Threads s (home s live)) (hmain : s.main = none)
    (hquiet : ∀ y, s.state y ≠ .running) (ht : s.heads .free = some t) :
    Sound (adoptMain s t) live := by
  have hhome := h.head_place ht
  have hk := (keeps_taskListRemove s .free t t).trans (keeps_modify _ t Tcb.asMain)
  have hth : Threads (adoptMain s t) (off t (home s live)) :=
    (h.remove hhome).modify (t:=t) Tcb.asMain fun _ => ⟨rfl,rfl⟩
  refine ⟨⟨hth.place_congr fun y => ?_,t,rfl,(home_free hhome).2,?_⟩,.inl rfl,?_,fun _ => rfl⟩
  · by_cases hy : t = y
    · simp [hy,home,off,adoptMain]
    · have hs : (adoptMain s t).state y = s.state y := hk.state y hy
      have hp : (adoptMain s t).priority y = s.priority y := hk.priority y hy
      rw [off,if_neg hy,home,home,hs,hp,hmain]
      simp [adoptMain,Ne.symm hy]
  · simp [adoptMain,Sched.state,modify_tasks,Tcb.asMain]
  · intro y hy hr
    have hne : t ≠ y := fun e => hy (congrArg some e.symm)
    exact absurd ((hk.state y hne).symm.trans hr) (hquiet y)

def bootLive (s : Sched) (t : TaskId) : Bool := s.heads (.ready prioIdle) = some t

theorem schedulerInit_sound (h : schedulerInit stackOk bootOk = some s) : Sound s (bootLive s) := by
  rw [schedulerInit] at h
  have hth := threads_addAll (finRange maxTasks) threads_blank (nodup_finRange _)
    fun _ _ => rfl
  obtain ⟨hk,hready⟩ := keeps_addAll (finRange maxTasks) blank 0
  generalize (finRange maxTasks).foldl (fun s t => taskListAdd s .free t) blank = s₁ at *
  have hth₁ : Threads s₁ (home s₁ fun _ => false) :=
    hth.place_congr fun y => by simp [home,hk.main,blank,mem_finRange]
  rcases hc : taskCreate s₁ prioIdle.val stackOk bootOk with ⟨s₂,o⟩
  simp only [hc] at h
  cases o with
  | none => simp at h
  | some t =>
    obtain ⟨m,hf,rfl⟩ := Option.map_eq_some_iff.mp h
    obtain ⟨hp,hhead⟩ := taskCreate_head hc
    rcases hc▸taskCreate_spec hth₁ prioIdle.val stackOk bootOk with he | ⟨t',-,hk₂,hth₂,hst,hout⟩
    · simp at he
    obtain rfl : t = t' := by simpa using hout
    have hlive : bootLive (adoptMain s₂ m) = mark (fun _ => false) (some t) := by
      funext y
      have hsame : (adoptMain s₂ m).heads (.ready prioIdle) = some t := by
        simp only [adoptMain,modify_heads,taskListRemove_heads]
        simpa using hhead
      simp [bootLive,hsame,mark]
    rw [hlive]
    refine adoptMain_sound hth₂ (hk₂.main.trans hk.main) (fun y => ?_) hf
    by_cases hy : t = y
    · simp [←hy,hst]
    · rw [hk₂.state y hy,hready]
      simp [blank,Sched.state]

end

/-- With the blocks handed out and not given back. -/
structure World where
  sched : Sched
  live : TaskId → Bool

section

variable (w : World)

def World.set (s : Sched) : World := { w with sched := s }

def boot (s : Sched) : World := ⟨s,bootLive s⟩

/-- `ret` returns from the entry point, `mainLoop` goes on with main's sleep. -/
inductive Call
  | create (priority : ℕ) (stackOk bootOk : Bool)
  | delete (task : Option TaskId)
  | yield
  | sleep (ticks : UInt32)
  | mainLoop
  | suspend (task : Option TaskId)
  | resume (task : Option TaskId)
  | tick
  | step
  | start
  | ret
  | enterIsr
  | exitIsr

def deleteTask : Option TaskId → World
  | none => w
  | some t => match taskDelete w.sched (some t) with
    | none => w
    | some s => ⟨s,unmark w.live t⟩

def createTask (priority : ℕ) (stackOk bootOk : Bool) : World :=
  let r := taskCreate w.sched priority stackOk bootOk
  ⟨r.1,mark w.live r.2⟩

def perform : Call → World
  | .create priority stackOk bootOk => createTask w priority stackOk bootOk
  | .delete task => deleteTask w task
  | .yield => w.set (taskYield w.sched)
  | .sleep ticks => w.set (taskSleep w.sched ticks)
  | .mainLoop => if w.sched.current = w.sched.main then w.set (sleepTurn w.sched) else w
  | .suspend task => w.set (taskSuspend w.sched task)
  | .resume task => w.set (taskResume w.sched task)
  | .tick => w.set (schedulerTick w.sched)
  | .step => w.set ((schedulerStep w.sched).getD w.sched)
  | .start => w.set ((schedulerStart w.sched).getD w.sched)
  | .ret => w.set (taskReturn w.sched)
  | .enterIsr => w.set (schedulerEnterIsr w.sched)
  | .exitIsr => w.set (schedulerExitIsr w.sched)

def Handle (task : Option TaskId) : Prop :=
  ∀ t, task = some t → some t = w.sched.main ∨ w.live t = true
  deriving Decidable

/-- Deleted handles are not used, and main does not suspend itself. -/
def Legal : Call → Prop
  | .delete task => Handle w task
  | .resume task => Handle w task
  | .suspend task => Handle w task ∧ (task = w.sched.current → task ≠ w.sched.main)
  | _ => True

instance (w : World) (c : Call) : Decidable (Legal w c) := by
  cases c <;> unfold Legal <;> infer_instance

/-- By main, or there is no task to switch to. -/
def FromMain : Call → Prop
  | .step => w.sched.current = w.sched.main ∨ nextToRun w.sched = none
  | _ => True

instance (w : World) (c : Call) : Decidable (FromMain w c) := by
  cases c <;> unfold FromMain <;> infer_instance

def run (calls : List Call) : World := calls.foldl perform w

end

def Along (cond : World → Call → Prop) : World → List Call → Prop
  | _,[] => True
  | w,c::calls => cond w c ∧ Along cond (perform w c) calls

instance decidableAlong (cond : World → Call → Prop) [∀ w c, Decidable (cond w c)] (w : World)
    (calls : List Call) : Decidable (Along cond w calls) := by
  induction calls generalizing w with
  | nil => exact isTrue trivial
  | cons c calls ih => exact instDecidableAnd

theorem alike_isr : Alike s (schedulerEnterIsr s) ∧ Alike s (schedulerExitIsr s) :=
  ⟨⟨rfl,rfl,rfl,rfl,rfl,rfl,rfl,rfl⟩,⟨rfl,rfl,rfl,rfl,rfl,rfl,rfl,rfl⟩⟩

theorem deleteTask_steady (h : Steady w.sched w.live lost) (ht : Handle w task) : Steady
    (deleteTask w task).sched (deleteTask w task).live lost := by
  cases task with
  | none => exact h
  | some t =>
    rw [deleteTask]
    cases hs : taskDelete w.sched (some t) with
    | none => exact h
    | some s => exact taskDelete_steady h (ht t rfl) hs

theorem schedulerStep_idle (h : nextToRun s = none) : (schedulerStep s).getD s = s := by
  rw [schedulerStep,h]
  split_ifs <;> rfl

/-- One call, whoever makes it. -/
theorem perform_steady (h : Steady w.sched w.live lost) (hl : Legal w c) (hm : FromMain w c ∨ ∀
    t, lost t) : Steady (perform w c).sched (perform w c).live lost := by
  cases c with
  | create priority stackOk bootOk => exact taskCreate_steady h priority stackOk bootOk
  | delete task => exact deleteTask_steady h hl
  | yield => exact taskYield_steady h
  | sleep ticks => exact taskSleep_steady h ticks
  | mainLoop =>
    rw [perform]
    split_ifs with hc
    · exact sleepTurn_steady h hc
    · exact h
  | suspend task => exact taskSuspend_steady h hl.1 hl.2
  | resume task => exact taskResume_steady h hl
  | tick => exact schedulerTick_steady h
  | step =>
    rcases hm with (hc | hidle) | hlost
    · exact schedulerStep_getD_steady h (.inl hc)
    · rw [perform,schedulerStep_idle hidle]
      exact h
    · exact schedulerStep_getD_steady h (.inr hlost)
  | start =>
    rw [perform]
    cases hs : schedulerStart w.sched with
    | none => exact h
    | some s => exact schedulerStart_steady h hs
  | ret => exact taskReturn_steady h
  | enterIsr => exact alike_isr.1.steady h
  | exitIsr => exact alike_isr.2.steady h

theorem run_sound (h : Sound w.sched w.live) (hl : Along Legal w calls) (hm : Along FromMain w
    calls) : Sound (run w calls).sched (run w calls).live := by
  induction calls generalizing w with
  | nil => exact h
  | cons c calls ih =>
    exact ih (sound_iff.mpr (perform_steady (sound_iff.mp h) hl.1 (.inl hm.1))) hl.2 hm.2

/-- Links are inverse, each block is once on its list, and only the current task runs, besides
main. -/
structure ListsConsistent (w : World) : Prop where
  linked : ∀ i, Linked w.sched.next w.sched.prev (w.sched.heads i) (queue w.sched i)
  once : ∀ t i, (queue w.sched i).count t = if home w.sched w.live t = some i then 1 else 0
  current : ∀ t, some t ≠ w.sched.main → w.sched.state t = .running → w.sched.current = some t
  lone : ∀ t u, some t ≠ w.sched.main → some u ≠ w.sched.main → w.sched.state t = .running →
    w.sched.state u = .running → t = u

theorem Sound.consistent (h : Sound w.sched w.live) : ListsConsistent w := by
  refine ⟨fun i => (h.threads.queue_spec i).1,fun t i => ?_,h.alone,fun t u ht hu hrt hru => ?_⟩
  · obtain ⟨hl,hm⟩ := h.threads.queue_spec i
    split_ifs with hh
    · exact count_eq_one_of_mem hl.nodup ((hm t).mpr hh)
    · exact count_eq_zero_of_not_mem fun e => hh ((hm t).mp e)
  · exact Option.some.inj ((h.alone t ht hrt).symm.trans (h.alone u hu hru))

/-- In every run in which no task makes `scheduler_step` switch, each block is on the list that
its life puts it on. -/
theorem scheduler_lists_consistent {stackOk bootOk : Bool}
    (hs : schedulerInit stackOk bootOk = some s) {calls : List Call}
    (hl : Along Legal (boot s) calls) (hm : Along FromMain (boot s) calls) :
    ListsConsistent (run (boot s) calls) :=
  (run_sound (w:=boot s) (schedulerInit_sound hs) hl hm).consistent

def booted : Sched := (schedulerInit true true).get (by decide +kernel)

theorem schedulerInit_booted : schedulerInit true true = some booted :=
  (Option.some_get _).symm

/-- Three tasks of two priorities do everything once. -/
def mixedCalls : List Call :=
  [.create 2 true true,.create 2 true true,.create 3 true false,.create 4 true true,.start,
    .sleep 2,.step,.yield,.suspend (some 3),.ret,.sleep 2,.resume (some 3),.sleep 1,.mainLoop,
    .delete (some 5),.suspend (some 3),.ret,.mainLoop,.delete (some 4),.create 1 true true]

theorem scheduler_lists_consistent_mixed : Along Legal (boot booted) mixedCalls ∧
    Along FromMain (boot booted) mixedCalls ∧ ListsConsistent (run (boot booted) mixedCalls) :=
  have hl : Along Legal (boot booted) mixedCalls := by decide +kernel
  have hm : Along FromMain (boot booted) mixedCalls := by decide +kernel
  ⟨hl,hm,scheduler_lists_consistent schedulerInit_booted hl hm⟩

/-- Its state stays while the other task is switched to. -/
def stepInTask : List Call := [.create 2 true true,.create 2 true true,.start,.step]

theorem step_in_task_runs_two : Along Legal (boot booted) stepInTask ∧
    ¬ListsConsistent (run (boot booted) stepInTask) := by
  refine ⟨by decide +kernel,fun h => ?_⟩
  exact absurd (h.lone 4 5 (by decide +kernel) (by decide +kernel) (by decide +kernel)
    (by decide +kernel)) (by decide)

end TinyDeviceOs.Scheduler
