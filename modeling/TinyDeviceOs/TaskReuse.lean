import TinyDeviceOs.PowerGovernor
import TinyDeviceOs.SchedulerRuns

/-! A control block under its next task. `task_create` leaves out `power_demand`, which the
governor reads. -/
namespace TinyDeviceOs.Scheduler

open PowerGovernor Runs

/-- With the `power_demand` of every block. -/
structure Tasks where
  world : World
  demand : TaskId → Demand

inductive Event
  | call (c : Call)
  | setDemand (task : Option TaskId) (demand : ℕ)

/-- `none` if `power_set_demand` returns -1 or is about another. -/
def Event.demandFor (t : TaskId) : Event → Option Demand
  | .call _ => none
  | .setDemand task demand =>
    if task = some t then (demandOf demand).filter (· ≠ .unset) else none

def Tasks.step (s : Tasks) (e : Event) : Tasks where
  world := match e with
    | .call c => perform s.world c
    | .setDemand _ _ => s.world
  demand t := (e.demandFor t).getD (s.demand t)

/-- The blocks after the `memset` of `scheduler_init`. -/
def Tasks.boot (s : Sched) : Tasks := ⟨Scheduler.boot s,fun _ => .unset⟩

/-- Under whichever task. -/
def lastDemand (es : List Event) (t : TaskId) : Demand :=
  (es.reverse.findSome? (Event.demandFor t)).getD .unset

theorem demand_eq_last : (after Tasks.step (Tasks.boot s) es).demand t = lastDemand es t := by
  induction es using List.reverseRecOn with
  | nil => rfl
  | append_singleton es e ih =>
    rw [after_append,lastDemand,List.reverse_append,List.reverse_singleton,List.singleton_append,
      List.findSome?_cons]
    change (e.demandFor t).getD (Tasks.demand _ t) = _
    cases e.demandFor t with
    | none => exact ih
    | some demand => rfl

theorem heads_eq_of_queue (h : queue s₁ i = queue s₂ i) : s₁.heads i = s₂.heads i := by
  have hhead (s : Sched) : (queue s i).head? = s.heads i := by
    rw [queue]
    cases s.heads i <;> rfl
  rw [←hhead,h,hhead]

theorem taskCreate_block (h : taskCreate s priority stackOk bootOk = (s',some t)) : (s'.tasks
    t).state = .ready ∧ ((s'.tasks t).priority : ℕ) = priority ∧ (s'.tasks t).wakeTime = 0 ∧
    (s'.tasks t).sleepTicks = 0 := by
  rw [taskCreate] at h
  cases hf : s.heads .free with
  | none => simp [hf] at h
  | some x =>
    simp only [hf] at h
    split_ifs at h with hp hok
    · simp only [Prod.mk.injEq,Option.some.injEq] at h
      obtain ⟨rfl,rfl⟩ := h
      simp [taskAddToReady,setState_tasks,taskListAdd_tasks,Sched.setContext,modify_tasks,takeFree,
        Tcb.fresh]
    · simp at h
    · simp at h

theorem taskCreate_snd : (taskCreate s priority stackOk bootOk).2 = if priority < 5 ∧ (stackOk
    && bootOk) = true then s.heads .free else none := by
  rw [taskCreate]
  cases s.heads .free with
  | none => simp
  | some t =>
    dsimp only
    split_ifs <;> simp_all

/-- State, priority, timing, demand and what the governor makes of it. -/
structure SameTask (t : TaskId) (s₁ s₂ : Tasks) : Prop where
  state : s₁.world.sched.state t = s₂.world.sched.state t
  priority : s₁.world.sched.priority t = s₂.world.sched.priority t
  wakeTime : (s₁.world.sched.tasks t).wakeTime = (s₂.world.sched.tasks t).wakeTime
  sleepTicks : (s₁.world.sched.tasks t).sleepTicks = (s₂.world.sched.tasks t).sleepTicks
  demand : s₁.demand t = s₂.demand t
  governed : ∀ g, powerGovernorNoteBusy g (some (s₁.demand t)) =
    powerGovernorNoteBusy g (some (s₂.demand t))

def history (b : Sched) (es : List Event) : Tasks := after Tasks.step (Tasks.boot b) es

def busyTask : List Event :=
  [.call (.create 2 true true),.setDemand (booted.heads .free) 4,
    .call (.delete (booted.heads .free))]

def plainTask : List Event := [.call (.create 2 true true),.call (.delete (booted.heads .free))]

end TinyDeviceOs.Scheduler
