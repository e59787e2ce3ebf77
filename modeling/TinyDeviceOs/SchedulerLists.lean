import TinyDeviceOs.LinkedList
import Mathlib.Data.Fintype.Card

/-! The cooperative scheduler (kernel/scheduler.c). Control blocks are linked into lists by their
own fields. A call that gives up the processor ends in the state where another context goes on. -/
namespace TinyDeviceOs.Scheduler

open LinkedList

abbrev maxTasks : ℕ := 8

abbrev TaskId := Fin maxTasks

inductive TaskState
  | ready | running | blocked | suspended | terminated
  deriving DecidableEq

/-- `TASK_PRIO_IDLE` to `TASK_PRIO_CRITICAL`. -/
abbrev Priority := Fin 5

def prioIdle : Priority := 0
def prioNormal : Priority := 2

/-- `ready_list[priority]`, `blocked_list` and `free_list`. -/
inductive ListId
  | ready (priority : Priority)
  | blocked
  | free
  deriving DecidableEq

/-- At the entry, or behind the `setjmp` that parked it. -/
inductive Context
  | entry | yield | sleep | suspend
  deriving DecidableEq

/-- The fields of `task_tcb_t` that the scheduler reads. -/
structure Tcb where
  state : TaskState
  priority : Priority
  (wakeTime sleepTicks : UInt32)
  context : Context
  (next prev : Option TaskId)
deriving DecidableEq

/-- With `g_main_task` and `g_last_switched_task`; `sleepUntil` bounds main's sleep. -/
structure Sched where
  tasks : TaskId → Tcb
  current : Option TaskId
  heads : ListId → Option TaskId
  (tickCount nextWakeTick : UInt32)
  (started inIsr : Bool)
  nestingLevel : UInt8
  (main lastSwitched : Option TaskId)
  sleepUntil : Option UInt32

namespace Sched

variable (s : Sched)

def next (t : TaskId) : Option TaskId := (s.tasks t).next
def prev (t : TaskId) : Option TaskId := (s.tasks t).prev
def state (t : TaskId) : TaskState := (s.tasks t).state
def priority (t : TaskId) : Priority := (s.tasks t).priority

def modify (t : TaskId) (f : Tcb → Tcb) : Sched :=
  { s with tasks := Function.update s.tasks t (f (s.tasks t)) }

def modifyAt : Option TaskId → (Tcb → Tcb) → Sched
  | none,_ => s
  | some t,f => s.modify t f

def setHead (i : ListId) (t : Option TaskId) : Sched :=
  { s with heads := Function.update s.heads i t }

def setState (t : TaskId) (x : TaskState) : Sched := s.modify t fun b => { b with state := x }

def setSleepUntil (bound : Option UInt32) : Sched := { s with sleepUntil := bound }

def setContext (t : TaskId) (x : Context) : Sched := s.modify t fun b => { b with context := x }

end Sched

section

variable (s : Sched) (i : ListId)

section

variable (task : TaskId)

def taskListAdd : Sched :=
  let s₁ := s.modify task fun b => { b with next := s.heads i, prev := none }
  (s₁.modifyAt (s.heads i) fun b => { b with prev := some task }).setHead i (some task)

def taskListRemove : Sched :=
  let s₁ := match s.prev task with
    | some p => s.modify p fun b => { b with next := s.next task }
    | none => s.setHead i (s.next task)
  let s₂ := s₁.modifyAt (s.next task) fun b => { b with prev := s.prev task }
  s₂.modify task fun b => { b with next := none, prev := none }

def taskAddToReady : Sched :=
  (taskListAdd s (.ready (s.priority task)) task).setState task .ready

def taskGetHighestReady : Option TaskId :=
  [4,3,2,1,0].findSome? fun priority => s.heads (.ready priority)

/-- Unless it is of idle priority: such tasks are never switched to. -/
def nextToRun : Option TaskId :=
  (taskGetHighestReady s).filter fun t => s.priority t ≠ prioIdle

def queue : List TaskId := walk s.next maxTasks (s.heads i)

def schedulerLock : Sched :=
  if s.inIsr then s else { s with nestingLevel := s.nestingLevel+1 }

def schedulerUnlock : Sched :=
  if s.inIsr = false ∧ 0 < s.nestingLevel then { s with nestingLevel := s.nestingLevel-1 } else s

def schedulerEnterIsr : Sched :=
  { s with inIsr := true, nestingLevel := s.nestingLevel+1 }

def schedulerExitIsr : Sched :=
  let n := if 0 < s.nestingLevel then s.nestingLevel-1 else s.nestingLevel
  { s with nestingLevel := n, inIsr := if n = 0 then false else s.inIsr }

/-- To the caller of `scheduler_step`, inside which all tasks run. -/
def switchToMain : Sched :=
  { s.modifyAt s.main fun b => { b with state := .running } with
    current := s.main
    lastSwitched := none }

/-- Between the jump into its context and the return to its own code. -/
def resumeTask : Sched :=
  match (s.tasks task).context with
  | .entry => s
  | .yield => schedulerUnlock s
  | .sleep => s.setState task .running
  | .suspend => schedulerUnlock (s.setState task .running)

end

def contextSwitch (next : TaskId) : Sched :=
  if some next = s.main then switchToMain s
  else
    let s₁ := taskListRemove s (.ready (s.priority next)) next
    resumeTask ({ s₁ with current := some next }.setState next .running) next

/-- The switch of a task that gives up the processor. -/
def switchTo : Option TaskId → Sched
  | some next => contextSwitch s next
  | none => switchToMain s

/-- The caller's context is saved; that of a task takes the place of main's. No result is `-1`. -/
def schedulerStep : Option Sched :=
  if s.started = false then none
  else match nextToRun s with
    | none => some s
    | some next =>
      if some next = s.lastSwitched then some s
      else
        let sleepUntil := if s.current = s.main then s.sleepUntil else none
        some (contextSwitch (s.setSleepUntil sleepUntil) next)

def schedulerStart : Option Sched :=
  if s.started then none else schedulerStep { s with started := true }

def Tcb.fresh (priority : Priority) (b : Tcb) : Tcb := { b with
  priority := priority
  state := .ready
  wakeTime := 0
  sleepTicks := 0 }

/-- The head of the free list becomes a new task's block. -/
def takeFree (task : TaskId) (priority : Priority) : Sched :=
  (taskListRemove s .free task).modify task (Tcb.fresh priority)

/-- `stackOk`: the stack is allocated. `bootOk`: the bootstrap saves a context. -/
def taskCreate (priority : ℕ) (stackOk bootOk : Bool) : Sched × Option TaskId :=
  match s.heads .free with
  | none => (s,none)
  | some task =>
    if h : priority < 5 then
      let s₁ := takeFree s task ⟨priority,h⟩
      if stackOk && bootOk then (taskAddToReady (s₁.setContext task .entry) task,some task)
      else (taskListAdd s₁ .free task,none)
    else (s,none)

/-- No result is `-1`. -/
def taskDelete : Option TaskId → Option Sched
  | none => none
  | some task =>
    if some task = s.current then none
    else
      let s₁ := match s.state task with
        | .ready => some (taskListRemove s (.ready (s.priority task)) task)
        | .blocked => some (taskListRemove s .blocked task)
        | .suspended => some s
        | .terminated => some s
        | .running => none
      s₁.map fun s => taskListAdd (s.setState task .terminated) .free task

def taskYield : Sched :=
  let s₁ := schedulerLock s
  if s₁.current = s₁.main then
    let s₂ := schedulerUnlock s₁
    (schedulerStep s₂).getD s₂
  else match s₁.current with
    | none => schedulerUnlock s₁
    | some current =>
      if s₁.state current = .running then
        let s₂ := (s₁.setContext current .yield).setState current .ready
        let next := nextToRun s₂
        switchTo (taskAddToReady s₂ current) next
      else schedulerUnlock s₁

def taskReturn : Sched :=
  match s.current with
  | none => s
  | some task => if some task = s.main then s else switchToMain (s.setState task .terminated)

def wake (task : TaskId) : Sched :=
  taskAddToReady ((taskListRemove s .blocked task).setState task .ready) task

def wakeIfDue (task : TaskId) : Sched :=
  if (s.tasks task).wakeTime ≤ s.tickCount then wake s task else s

def wakeLoop : Sched :=
  forEach Sched.next wakeIfDue maxTasks s (s.heads .blocked)

def earlier (bound : UInt32) (task : TaskId) : UInt32 :=
  if (s.tasks task).wakeTime < bound then (s.tasks task).wakeTime else bound

def schedulerUpdateNextWakeTick : Sched :=
  { s with nextWakeTick := (queue s .blocked).foldl (earlier s) 0xFFFFFFFF }

def schedulerTick : Sched :=
  let s₁ := schedulerLock s
  let s₂ := { s₁ with tickCount := s₁.tickCount+1 }
  schedulerUnlock (schedulerUpdateNextWakeTick (wakeLoop s₂))

def sleepTurn : Sched :=
  match s.sleepUntil with
  | none => s
  | some bound =>
    if s.tickCount < bound then
      let s₁ := schedulerTick s
      (schedulerStep s₁).getD s₁
    else s.setSleepUntil none

def taskSleep (ticks : UInt32) : Sched :=
  match s.current with
  | none => s
  | some current =>
    if some current = s.main then sleepTurn (s.setSleepUntil (some (s.tickCount+ticks)))
    else
      let s₁ := s.modify current fun b => { b with
        sleepTicks := ticks
        wakeTime := s.tickCount+ticks
        state := .blocked }
      switchToMain ((taskListAdd s₁ .blocked current).setContext current .sleep)

def taskSuspend : Option TaskId → Sched
  | none => s
  | some task =>
    let s₁ := schedulerLock s
    if some task = s₁.current then
      let s₂ := (s₁.setContext task .suspend).setState task .suspended
      switchTo s₂ (nextToRun s₂)
    else match s₁.state task with
      | .ready =>
        let s₂ := taskListRemove s₁ (.ready (s₁.priority task)) task
        schedulerUnlock (s₂.setState task .suspended)
      | .blocked =>
        let s₂ := (taskListRemove s₁ .blocked task).modify task fun b => { b with
          wakeTime := 0
          sleepTicks := 0 }
        schedulerUnlock (s₂.setState task .suspended)
      | _ => schedulerUnlock s₁

def taskResume : Option TaskId → Sched
  | none => schedulerUnlock (schedulerLock s)
  | some task =>
    let s₁ := schedulerLock s
    if s₁.state task = .suspended then
      schedulerUnlock (taskAddToReady (s₁.setState task .ready) task)
    else schedulerUnlock s₁

def blank : Sched where
  tasks _ := ⟨.ready,0,0,0,.entry,none,none⟩
  current := none
  heads _ := none
  tickCount := 0
  nextWakeTick := 0xFFFFFFFF
  started := false
  inIsr := false
  nestingLevel := 0
  main := none
  lastSwitched := none
  sleepUntil := none

def Tcb.asMain (b : Tcb) : Tcb := { b with
  priority := prioNormal
  state := .running
  wakeTime := 0
  sleepTicks := 0 }

/-- The code that is running becomes a task of its own. -/
def adoptMain (main : TaskId) : Sched :=
  { (taskListRemove s .free main).modify main Tcb.asMain with
    current := some main
    main := some main }

end

/-- All blocks go to the free list; the idle task and main take one each. -/
def schedulerInit (stackOk bootOk : Bool) : Option Sched :=
  let s₁ := (List.finRange maxTasks).foldl (fun s t => taskListAdd s .free t) blank
  match taskCreate s₁ prioIdle.val stackOk bootOk with
  | (_,none) => none
  | (s₂,some _) => (s₂.heads .free).map (adoptMain s₂)

section

variable {s s' s'' : Sched} {t : TaskId}

section

variable (s : Sched) (t y : TaskId) (o : Option TaskId) (f : Tcb → Tcb)

theorem modify_tasks : (s.modify t f).tasks y = if t = y then f (s.tasks y) else s.tasks y := by
  simp only [Sched.modify,Function.update_apply,eq_comm (a:=y)]
  split_ifs with h
  · rw [h]
  · rfl

theorem modifyAt_tasks :
    (s.modifyAt o f).tasks y = if o = some y then f (s.tasks y) else s.tasks y := by
  cases o with
  | none => simp [Sched.modifyAt]
  | some t => simp [Sched.modifyAt,modify_tasks]

@[simp] theorem modify_heads : (s.modify t f).heads = s.heads := rfl

@[simp] theorem modifyAt_heads : (s.modifyAt o f).heads = s.heads := by
  cases o <;> rfl

@[simp] theorem setHead_tasks : (s.setHead i o).tasks = s.tasks := rfl

theorem setHead_heads : (s.setHead i o).heads j = if i = j then o else s.heads j := by
  simp only [Sched.setHead,Function.update_apply,eq_comm (a:=j)]

theorem setState_tasks : (s.setState t x).tasks y =
    { s.tasks y with state := if t = y then x else s.state y } := by
  rw [Sched.setState,modify_tasks]
  split_ifs <;> rfl

theorem taskListAdd_tasks : (taskListAdd s i t).tasks y = { s.tasks y with
    next := if t = y then s.heads i else s.next y
    prev := if s.heads i = some y then some t else if t = y then none else s.prev y } := by
  simp only [taskListAdd,setHead_tasks,modifyAt_tasks,modify_tasks]
  split_ifs <;> rfl

theorem taskListAdd_heads (j : ListId) : (taskListAdd s i t).heads j = if i = j then some t else
    s.heads j := by
  simp only [taskListAdd,setHead_heads,modifyAt_heads,modify_heads]

theorem taskListRemove_tasks : (taskListRemove s i t).tasks y = { s.tasks y with
    next := if t = y then none else if s.prev t = some y then s.next t else s.next y
    prev := if t = y then none else if s.next t = some y then s.prev t else s.prev y } := by
  cases hp : s.prev t with
  | none =>
    simp only [taskListRemove,hp,modify_tasks,modifyAt_tasks,setHead_tasks]
    split_ifs <;> simp_all [Sched.next,Sched.prev]
  | some p =>
    simp only [taskListRemove,hp,modify_tasks,modifyAt_tasks,Option.some.injEq]
    split_ifs <;> simp_all [Sched.next,Sched.prev]

theorem taskListRemove_heads (j : ListId) : (taskListRemove s i t).heads j = if i = j ∧ s.prev t
    = none then s.next t else s.heads j := by
  cases hp : s.prev t with
  | none => simp [taskListRemove,hp,setHead_heads]
  | some p => simp [taskListRemove,hp]

end

structure Keeps (t : TaskId) (s s' : Sched) : Prop where
  main : s'.main = s.main
  current : s'.current = s.current
  started : s'.started = s.started
  state : ∀ y, t ≠ y → s'.state y = s.state y
  priority : ∀ y, t ≠ y → s'.priority y = s.priority y

theorem Keeps.trans (h : Keeps t s s') (h' : Keeps t s' s'') : Keeps t s s'' :=
  ⟨h'.main.trans h.main,h'.current.trans h.current,h'.started.trans h.started,
    fun y hy => (h'.state y hy).trans (h.state y hy),
    fun y hy => (h'.priority y hy).trans (h.priority y hy)⟩

theorem keeps_modify (s : Sched) (t : TaskId) (f : Tcb → Tcb) : Keeps t s (s.modify t f) := by
  refine ⟨rfl,rfl,rfl,fun y hy => ?_,fun y hy => ?_⟩
  · rw [Sched.state,modify_tasks,if_neg hy]
    rfl
  · rw [Sched.priority,modify_tasks,if_neg hy]
    rfl

@[simp] theorem taskListAdd_state (s : Sched) (i : ListId) (t y : TaskId) :
    (taskListAdd s i t).state y = s.state y := by
  rw [Sched.state,taskListAdd_tasks]
  rfl

@[simp] theorem taskListAdd_priority : (taskListAdd s i t).priority y = s.priority y := by
  rw [Sched.priority,taskListAdd_tasks]
  rfl

@[simp] theorem taskListRemove_state : (taskListRemove s i t).state y = s.state y := by
  rw [Sched.state,taskListRemove_tasks]
  rfl

@[simp] theorem taskListRemove_priority : (taskListRemove s i t).priority y = s.priority y := by
  rw [Sched.priority,taskListRemove_tasks]
  rfl

@[simp] theorem setState_state : (s.setState t x).state y = if t = y then x else s.state y := by
  rw [Sched.state,setState_tasks]

section

variable (s)

@[simp] theorem setState_priority (t y : TaskId) (x : TaskState) : (s.setState t x).priority y =
    s.priority y := by
  rw [Sched.priority,setState_tasks]
  rfl

variable (i)

theorem keeps_taskListAdd (t x : TaskId) : Keeps x s (taskListAdd s i t) := by
  refine ⟨?_,?_,?_,fun y _ => taskListAdd_state s i t y,fun y _ => taskListAdd_priority⟩
  all_goals
    rw [taskListAdd]
    cases s.heads i <;> rfl

theorem keeps_taskListRemove (t x : TaskId) : Keeps x s (taskListRemove s i t) := by
  refine ⟨?_,?_,?_,fun y _ => taskListRemove_state,
    fun y _ => taskListRemove_priority⟩
  all_goals
    rw [taskListRemove]
    cases s.prev t <;> cases s.next t <;> rfl

variable (t)

theorem keeps_setState (x : TaskState) : Keeps t s (s.setState t x) :=
  keeps_modify s t _

theorem keeps_taskAddToReady : Keeps t s (taskAddToReady s t) :=
  (keeps_taskListAdd s _ t t).trans (keeps_setState _ t .ready)

end

/-- The lists hold the blocks where `place` puts them. -/
def Threads (s : Sched) (place : TaskId → Option ListId) : Prop :=
  Family s.next s.prev s.heads place

section

def off (t : TaskId) (place : TaskId → Option ListId) (y : TaskId) : Option ListId :=
  if t = y then none else place y

theorem Threads.place_congr (h : Threads s place) (hp : ∀ y, place' y = place y) :
    Threads s place' :=
  h.congr (fun _ => rfl) (fun _ => rfl) (fun _ => rfl) hp

theorem Threads.off (h : Threads s place) (ht : place t = none) : Threads s (off t place) := by
  refine h.place_congr fun y => ?_
  rw [Scheduler.off]
  split_ifs with hy
  · rw [←hy,ht]
  · rfl

theorem Threads.remove (h : Threads s place) (ht : place t = some i) :
    Threads (taskListRemove s i t) (Scheduler.off t place) := by
  refine Family.remove h ht (fun y hy => ?_) (fun y hy => ?_) (taskListRemove_heads s t)
    fun y => rfl
  · simp only [Sched.next,taskListRemove_tasks,if_neg hy]
  · simp only [Sched.prev,taskListRemove_tasks,if_neg hy]

theorem Threads.add (h : Threads s (Scheduler.off t place)) (i : ListId) :
    Threads (taskListAdd s i t) fun y => if t = y then some i else place y := by
  refine h.push (x:=t) (if_pos rfl) (fun y => ?_) (fun y => ?_) (taskListAdd_heads s t) fun y => ?_
  · rw [Sched.next,taskListAdd_tasks]
  · rw [Sched.prev,taskListAdd_tasks]
  · rw [Scheduler.off]
    split_ifs <;> rfl

theorem Threads.modify (h : Threads s place) (f : Tcb → Tcb)
    (hf : ∀ b, (f b).next = b.next ∧ (f b).prev = b.prev) : Threads (s.modify t f) place := by
  refine h.congr (fun y => ?_) (fun y => ?_) (fun j => rfl) fun y => rfl
  · rw [Sched.next,modify_tasks]
    split_ifs
    · exact (hf _).1
    · rfl
  · rw [Sched.prev,modify_tasks]
    split_ifs
    · exact (hf _).2
    · rfl

theorem Threads.setState (h : Threads s place) (x : TaskState) : Threads (s.setState t x) place :=
  h.modify _ fun _ => ⟨rfl,rfl⟩

theorem Threads.setContext (h : Threads s place) (x : Context) :
    Threads (s.setContext t x) place :=
  h.modify _ fun _ => ⟨rfl,rfl⟩

theorem Threads.addToReady (h : Threads s (Scheduler.off t place)) :
    Threads (taskAddToReady s t) fun y =>
      if t = y then some (.ready (s.priority t)) else place y :=
  (h.add (.ready (s.priority t))).setState .ready

/-- There are no more members than blocks, so every loop ends. -/
theorem Threads.queue_spec (h : Threads s place) (i : ListId) :
    Linked s.next s.prev (s.heads i) (queue s i) ∧ ∀ y, y ∈ queue s i ↔ place y = some i := by
  obtain ⟨xs,hl,hm⟩ := h i
  have hlen : xs.length ≤ maxTasks := by
    simpa using hl.nodup.length_le_card
  rw [queue,Segment.walk_eq hl hlen]
  exact ⟨hl,hm⟩

end

/-- None for main, the free list unless it is in use. -/
def home (s : Sched) (live : TaskId → Bool) (t : TaskId) : Option ListId :=
  if some t = s.main then none
  else if live t = false then some .free
  else match s.state t with
    | .ready => some (.ready (s.priority t))
    | .blocked => some .blocked
    | _ => none

section

theorem home_congr (hm : s'.main = s.main) (hs : s'.state t = s.state t)
    (hp : s'.priority t = s.priority t) (hl : live' t = live t) :
    home s' live' t = home s live t := by
  rw [home,home,hm,hs,hp,hl]

theorem home_free (h : home s live t = some .free) : some t ≠ s.main ∧ live t = false := by
  rw [home] at h
  split_ifs at h with hm hl
  · exact ⟨hm,hl⟩
  · cases hs : s.state t <;> simp [hs] at h

theorem home_blocked (h : home s live t = some .blocked) :
    some t ≠ s.main ∧ live t = true ∧ s.state t = .blocked := by
  rw [home] at h
  split_ifs at h with hm hl
  · simp at h
  · refine ⟨hm,by simpa using hl,?_⟩
    cases hs : s.state t <;> simp [hs] at h
    rfl

theorem home_ready (h : home s live t = some (.ready p)) : some t ≠ s.main ∧ live t = true ∧
    s.state t = .ready ∧ s.priority t = p := by
  rw [home] at h
  split_ifs at h with hm hl
  · simp at h
  · refine ⟨hm,by simpa using hl,?_⟩
    cases hs : s.state t <;> simp [hs] at h
    exact ⟨rfl,h⟩

theorem home_live (hm : some t ≠ s.main) (hl : live t = true) : home s live t =
    match s.state t with
    | .ready => some (.ready (s.priority t))
    | .blocked => some .blocked
    | _ => none := by
  rw [home,if_neg hm,if_neg (by simp [hl])]

theorem Keeps.home_eq (h : Keeps t s s') (hl : ∀ y, t ≠ y → live' y = live y) (hn : t ≠ n) :
    home s' live' n = home s live n :=
  home_congr h.main (h.state n hn) (h.priority n hn) (hl n hn)

theorem Threads.settle (h : Threads s' fun y => if t = y then q else home s live y)
    (hk : Keeps t s s') (hl : ∀ y, t ≠ y → live' y = live y) (hq : home s' live' t = q) :
    Threads s' (home s' live') := by
  refine h.place_congr fun y => ?_
  split_ifs with hy
  · rw [←hy,hq]
  · exact hk.home_eq hl hy

end

end

end TinyDeviceOs.Scheduler
