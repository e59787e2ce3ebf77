import TinyDeviceOs.Runs
import TinyDeviceOs.SchedulerRuns

/-! The task of an application (apps/app.c). When the entry point returns, the task itself runs the
code that is to delete it. -/
namespace TinyDeviceOs.AppTasks

open LinkedList Runs Scheduler

inductive AppState
  | notInstalled
  | installed
  | stopped
  | running
  | suspended
  | error
  deriving DecidableEq

/-- What starting and stopping use of `app_t`. -/
structure App where
  state : AppState
  task : Option TaskId
  (startTime cpuTimeUsed : UInt32)
  deriving DecidableEq

structure System where
  world : World
  app : App

section

variable (x : System)

/-- `stackOk` and `bootOk` are as for `task_create`. -/
def appStart (stackOk bootOk : Bool) : Int32 × System :=
  if x.app.state ≠ .installed ∧ x.app.state ≠ .stopped then (-1,x)
  else
    let world := createTask x.world prioNormal.val stackOk bootOk
    match (taskCreate x.world.sched prioNormal.val stackOk bootOk).2 with
    | none => (-1,⟨world,x.app⟩)
    | some task => (0,⟨world,⟨.running,some task,world.sched.tickCount,0⟩⟩)

def appStop : Int32 × System :=
  if x.app.state ≠ .running then (-1,x)
  else
    let world := deleteTask x.world x.app.task
    (0,⟨world,{ x.app with
      task := none
      state := .stopped
      cpuTimeUsed := x.app.cpuTimeUsed+(world.sched.tickCount-x.app.startTime) }⟩)

/-- The rest of `app_task_entry`, and of the trampoline. -/
def entryReturned : System :=
  let stopped := (appStop x).2
  ⟨perform (deleteTask stopped.world stopped.app.task) .ret,stopped.app⟩

/-- A start, the run of main and the tasks, and the return. -/
def round (calls : List Call) : System :=
  let started := (appStart x true true).2
  entryReturned ⟨run started.world calls,started.app⟩

end

section

variable (x : System)

def freeCount : ℕ := (queue x.world.sched .free).length

def neutral : Call → Bool
  | .create _ _ _ => false
  | .delete _ => false
  | _ => true

/-- A round that starts goes on until its task is about to return. -/
def Completes (calls : List Call) : Prop :=
  (appStart x true true).1 = 0 →
    Along Legal (appStart x true true).2.world calls ∧ (∀ c ∈ calls, neutral c) ∧
      (run (appStart x true true).2.world calls).sched.current = (appStart x true true).2.app.task
  deriving Decidable

def Starts (_ : List Call) : Prop := (appStart x true true).1 = 0

/-- The round starts, and its block is free again after it. -/
def GivesBack (calls : List Call) : Prop :=
  Starts x calls ∧ freeCount (round x calls) = freeCount x

end

section

def liveCount (live : TaskId → Bool) : ℕ := (Finset.univ.filter fun t => live t = true).card

theorem free_add_live (h : Settled s live) :
    (queue s .free).length+liveCount live+1 = maxTasks := by
  obtain ⟨hlinked,hmem⟩ := h.threads.queue_spec .free
  obtain ⟨m,hm,hlive,-⟩ := h.main
  have hfree : ∀ t, t ∈ queue s .free ↔ t ≠ m ∧ live t = false := by
    intro t
    rw [hmem t]
    constructor
    · intro hhome
      obtain ⟨hne,hl⟩ := home_free hhome
      exact ⟨fun heq => hne (heq ▸ hm.symm),hl⟩
    · rintro ⟨hne,hl⟩
      rw [home,if_neg fun heq => hne (Option.some.inj (heq.trans hm)),if_pos hl]
  have hidle : (Finset.univ.filter fun t => ¬live t = true) =
      insert m (queue s .free).toFinset := by
    ext t
    by_cases ht : t = m
    · simp [ht,hlive]
    · simp [ht,hfree t]
  have hnot : m ∉ (queue s .free).toFinset := fun hmem =>
    ((hfree m).mp (List.mem_toFinset.mp hmem)).1 rfl
  have hsum := Finset.card_filter_add_card_filter_not (s:=Finset.univ) fun t => live t = true
  rw [hidle,Finset.card_insert_of_notMem hnot,List.toFinset_card_of_nodup hlinked.nodup,
    Finset.card_univ,Fintype.card_fin] at hsum
  rw [liveCount]
  omega

theorem liveCount_mark (h : live t = false) :
    liveCount (mark live (some t)) = liveCount live+1 := by
  have hset : (Finset.univ.filter fun y => mark live (some t) y = true) =
      insert t (Finset.univ.filter fun y => live y = true) := by
    ext y
    by_cases hy : t = y
    · simp [mark,hy]
    · simp [mark,hy,Ne.symm hy]
  rw [liveCount,hset,Finset.card_insert_of_notMem (by simp [h]),liveCount]

theorem free_pos_iff : 0 < (queue s .free).length ↔ ∃ t, s.heads .free = some t := by
  rw [queue]
  cases s.heads .free with
  | none => exact iff_of_false (by simp [walk]) (by simp)
  | some t => exact iff_of_true (Nat.succ_pos _) ⟨t,rfl⟩

theorem taskCreate_handle : (taskCreate s prioNormal.val true true).2 = s.heads .free := by
  rw [taskCreate]
  cases s.heads .free with
  | none => rfl
  | some t => rfl

end

section

/-- It may be started, on a scheduler that was used properly. -/
structure Ready (x : System) : Prop where
  steady : Steady x.world.sched x.world.live fun _ => True
  app : x.app.state = .installed ∨ x.app.state = .stopped

theorem Ready.free (h : Ready x) : freeCount x+liveCount x.world.live+1 = maxTasks :=
  free_add_live h.steady.toSettled

theorem Ready.start_cases (h : Ready x) (hr : appStart x true true = r) :
    (x.world.sched.heads .free = none ∧ r.1 ≠ 0) ∨
    ∃ t, x.world.sched.heads .free = some t ∧ r.1 = 0 ∧ r.2.app.state = .running ∧
      r.2.app.task = some t ∧ r.2.world = createTask x.world prioNormal.val true true := by
  subst hr
  have happ : ¬(x.app.state ≠ .installed ∧ x.app.state ≠ .stopped) := by
    rcases h.app with happ | happ
    · exact fun hne => hne.1 happ
    · exact fun hne => hne.2 happ
  cases hfree : x.world.sched.heads .free with
  | none =>
    left
    simp only [appStart,if_neg happ,taskCreate_handle,hfree]
    exact ⟨trivial,by decide⟩
  | some t =>
    right
    refine ⟨t,rfl,?_⟩
    simp only [appStart,if_neg happ,taskCreate_handle,hfree]
    trivial

theorem Ready.starts_iff (h : Ready x) : (appStart x true true).1 = 0 ↔ 0 < freeCount x := by
  rw [freeCount,free_pos_iff]
  rcases h.start_cases rfl with ⟨hnone,hfail⟩ | ⟨t,hsome,hok,-⟩
  · exact iff_of_false hfail (by simp [hnone])
  · exact iff_of_true hok ⟨t,hsome⟩

theorem Ready.start_live (h : Ready x) (hr : appStart x true true = r) (hok : r.1 = 0) :
    Steady r.2.world.sched r.2.world.live (fun _ => True) ∧
      liveCount r.2.world.live = liveCount x.world.live+1 := by
  rcases h.start_cases hr with ⟨-,hfail⟩ | ⟨t,hsome,-,-,-,hworld⟩
  · exact absurd hok hfail
  rw [hworld]
  refine ⟨taskCreate_steady h.steady _ _ _,?_⟩
  have hhome := h.steady.threads.head_place hsome
  rw [createTask,taskCreate_handle,hsome]
  exact liveCount_mark (home_free hhome).2

theorem perform_live_of_neutral (hc : neutral c) : (perform w c).live = w.live := by
  cases c with
  | create priority stackOk bootOk => cases hc
  | delete task => cases hc
  | mainLoop =>
    rw [perform]
    split_ifs <;> rfl
  | _ => rfl

theorem run_steady (h : Steady w.sched w.live fun _ => True) (hlegal : Along Legal w calls) :
    Steady (run w calls).sched (run w calls).live fun _ => True := by
  induction calls generalizing w with
  | nil => exact h
  | cons c calls ih => exact ih (perform_steady h hlegal.1 (.inr fun _ => trivial)) hlegal.2

theorem run_live (hneutral : ∀ c ∈ calls, neutral c) : (run w calls).live = w.live := by
  induction calls generalizing w with
  | nil => rfl
  | cons c calls ih =>
    have hrest := ih (w:=perform w c) fun y hy => hneutral y (List.mem_cons_of_mem c hy)
    exact hrest.trans (perform_live_of_neutral (hneutral c List.mem_cons_self))

theorem deleteTask_current (h : w.sched.current = task) : deleteTask w task = w := by
  cases task with
  | none => rfl
  | some t => rw [deleteTask,taskDelete,if_pos h.symm]

theorem entryReturned_eq (hrunning : x.app.state = .running)
    (hcurrent : x.world.sched.current = x.app.task) :
    (entryReturned x).world = perform x.world .ret ∧ (entryReturned x).app.state = .stopped := by
  have hstop : ¬x.app.state ≠ .running := not_not_intro hrunning
  simp only [entryReturned,appStop,if_neg hstop,deleteTask_current hcurrent]
  exact ⟨rfl,trivial⟩

theorem Ready.after_round (h : Ready x) (hok : (appStart x true true).1 = 0)
    (hround : Completes x calls) :
    Ready (round x calls) ∧ freeCount (round x calls)+1 = freeCount x := by
  obtain ⟨hlegal,hneutral,hcurrent⟩ := hround hok
  obtain ⟨hstarted,hcount⟩ := h.start_live rfl hok
  have hsteady := run_steady hstarted hlegal
  have hrunning : (appStart x true true).2.app.state = .running := by
    rcases h.start_cases rfl with ⟨-,hfail⟩ | ⟨t,-,-,hstate,-⟩
    · exact absurd hok hfail
    · exact hstate
  obtain ⟨hworld,hstate⟩ := entryReturned_eq
    (x:=⟨run (appStart x true true).2.world calls,(appStart x true true).2.app⟩) hrunning hcurrent
  have hready : Ready (round x calls) := by
    refine ⟨?_,.inr hstate⟩
    rw [round,hworld]
    exact taskReturn_steady hsteady
  have hsame : liveCount (round x calls).world.live = liveCount x.world.live+1 := by
    rw [round,hworld,←hcount]
    exact congrArg liveCount (run_live hneutral)
  have hbefore := h.free
  have hafter := hready.free
  exact ⟨hready,by omega⟩

section

variable (h : Ready x) (hrounds : Each round Completes x rounds)
include h hrounds

theorem Ready.starts_all_iff : Each round Starts x rounds ↔ rounds.length ≤ freeCount x := by
  induction rounds generalizing x with
  | nil => exact iff_of_true trivial (Nat.zero_le _)
  | cons calls rounds ih =>
    rw [List.length_cons]
    by_cases hok : (appStart x true true).1 = 0
    · obtain ⟨hready,hcount⟩ := h.after_round hok hrounds.1
      refine (and_iff_right hok).trans ((ih hready hrounds.2).trans ?_)
      omega
    · have hzero : ¬0 < freeCount x := mt h.starts_iff.mpr hok
      exact iff_of_false (fun hall => hok hall.1) (by omega)

theorem Ready.gives_back_iff : Each round GivesBack x rounds ↔ rounds = [] := by
  cases rounds with
  | nil => exact iff_of_true trivial rfl
  | cons calls rounds =>
    refine iff_of_false (fun hall => ?_) (by simp)
    obtain ⟨hok,hsame⟩ := hall.1
    have hcount := (h.after_round hok hrounds.1).2
    omega

end

end

/-- No round gives its block back, so there are as many rounds as there were free blocks. -/
theorem app_rounds_iff {stackOk bootOk : Bool} {s : Sched}
    (hs : schedulerInit stackOk bootOk = some s) (before : List Call)
    (hbefore : Along Legal (boot s) before) (app : App)
    (happ : app.state = .installed ∨ app.state = .stopped) (rounds : List (List Call))
    (hrounds : Each round Completes ⟨run (boot s) before,app⟩ rounds) :
    (Each round GivesBack ⟨run (boot s) before,app⟩ rounds ↔ rounds = []) ∧
      (Each round Starts ⟨run (boot s) before,app⟩ rounds ↔
        rounds.length ≤ freeCount ⟨run (boot s) before,app⟩) := by
  have hsound := schedulerInit_sound hs
  have hboot : Steady (boot s).sched (boot s).live fun _ => True :=
    ⟨hsound.toSettled,hsound.current,fun _ _ _ => .inr trivial,hsound.starting⟩
  have hready : Ready ⟨run (boot s) before,app⟩ := ⟨run_steady hboot hbefore,happ⟩
  exact ⟨hready.gives_back_iff hrounds,hready.starts_all_iff hrounds⟩

def installed : System := ⟨run (boot booted) [.start],⟨.installed,none,0,0⟩⟩

/-- Rounds in which the entry point returns without giving up the processor. -/
def shortRounds (n : ℕ) : List (List Call) := List.replicate n [.step]

theorem app_rounds_iff_short : Each round Completes installed (shortRounds 6) ∧
    Each round Starts installed (shortRounds 6) ∧
    ¬Each round GivesBack installed (shortRounds 6) := by
  have hrounds : Each round Completes installed (shortRounds 6) := by decide +kernel
  have hiff := app_rounds_iff schedulerInit_booted [.start] ⟨trivial,trivial⟩ ⟨.installed,none,0,0⟩
    (.inl rfl) (shortRounds 6) hrounds
  exact ⟨hrounds,hiff.2.mpr (by decide +kernel),fun hback => absurd (hiff.1.mp hback) (by decide)⟩

/-- Of the six free blocks one is lost in each round, and the seventh start fails. -/
theorem blocks_run_out : Each round Completes installed (shortRounds 6) ∧ freeCount installed = 6 ∧
    freeCount (after round installed (shortRounds 1)) = 5 ∧
    freeCount (after round installed (shortRounds 6)) = 0 ∧
    (appStart (after round installed (shortRounds 6)) true true).1 = -1 := by
  refine ⟨?_,?_,?_,?_,?_⟩ <;> decide +kernel

end TinyDeviceOs.AppTasks
