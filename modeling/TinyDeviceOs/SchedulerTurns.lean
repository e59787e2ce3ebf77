import TinyDeviceOs.SchedulerDispatch

/-! Tasks of one priority that only yield. The one that yields goes to the front of the ready list.
-/
namespace TinyDeviceOs.Scheduler

open LinkedList Runs List Option

def Line (s : Sched) (i : ListId) (xs : List TaskId) : Prop :=
  Linked s.next s.prev (s.heads i) xs

theorem Line.queue_eq (h : Line s i xs) : queue s i = xs := by
  have hlen : xs.length ≤ maxTasks := by
    simpa using (Segment.nodup h).length_le_card
  exact Segment.walk_eq h hlen

theorem Threads.line (h : Threads s place) (i : ListId) : Line s i (queue s i) :=
  (h.queue_spec i).1

theorem Alike.line (ha : Alike s s') (h : Line s i xs) : Line s' i xs := by
  rw [Line,ha.next,ha.prev,ha.heads]
  exact h

theorem Line.setState (h : Line s i xs) (t : TaskId) (y : TaskState) :
    Line (s.setState t y) i xs := by
  refine Linked.congr h (fun z _ => ?_) (fun z _ => ?_)
  · rw [Sched.next,setState_tasks]
    rfl
  · rw [Sched.prev,setState_tasks]
    rfl

theorem Line.add (h : Line s i xs) (ht : t ∉ xs) : Line (taskListAdd s i t) i (t::xs) := by
  have hne {y : TaskId} (hy : y ∈ xs) : t ≠ y := fun e => ht (e▸hy)
  rw [Line,taskListAdd_heads,if_pos rfl]
  refine Linked.push h ?_ ?_ (fun y hy => ?_) (fun y hy => ?_)
  · simp only [Sched.next,taskListAdd_tasks,if_true]
  · have hhead : s.heads i ≠ some t := fun e => ht (Linked.head_mem h e)
    simp only [Sched.prev,taskListAdd_tasks,if_neg hhead,if_true]
  · simp only [Sched.next,taskListAdd_tasks,if_neg (hne hy)]
  · simp only [Sched.prev,taskListAdd_tasks,if_neg (hne hy)]

theorem Line.add_other (h : Line s j xs) (hij : i ≠ j) (ht : t ∉ xs)
    (hhead : ∀ y ∈ xs, s.heads i ≠ some y) : Line (taskListAdd s i t) j xs := by
  have hne {y : TaskId} (hy : y ∈ xs) : t ≠ y := fun e => ht (e▸hy)
  rw [Line,taskListAdd_heads,if_neg hij]
  refine Linked.congr h (fun y hy => ?_) (fun y hy => ?_)
  · simp only [Sched.next,taskListAdd_tasks,if_neg (hne hy)]
  · simp only [Sched.prev,taskListAdd_tasks,if_neg (hhead y hy),if_neg (hne hy)]

theorem Line.remove (h : Line s i (xs++t::ys)) : Line (taskListRemove s i t) i (xs++ys) := by
  have hne {y : TaskId} (hy : y ∈ xs++ys) : t ≠ y := by
    rintro rfl
    exact (nodup_middle.mp (Segment.nodup h)).notMem hy
  have hhead : (taskListRemove s i t).heads i =
      if s.prev t = none then s.next t else s.heads i := by
    rw [taskListRemove_heads]
    simp only [true_and]
  rw [Line,hhead]
  refine Linked.remove h (fun y hy => ?_) (fun y hy => ?_)
  · simp only [Sched.next,taskListRemove_tasks,if_neg (hne hy)]
  · simp only [Sched.prev,taskListRemove_tasks,if_neg (hne hy)]

theorem Line.contextSwitch (h : Line s (.ready (s.priority t)) (xs++t::ys)) (hm : some t ≠ s.main) :
    Line (contextSwitch s t) (.ready (s.priority t)) (xs++ys) := by
  rw [Scheduler.contextSwitch,if_neg hm]
  exact (resumeTask_alike (by simp)).line (Line.setState h.remove t .running)

theorem line_parked (h : Line s i xs) : Line (((schedulerLock s).setContext c .yield).setState c
    .ready) i xs :=
  Line.setState (((alike_lock s).trans (alike_setContext _ c .yield)).line h) c .ready

theorem parked_priority : (((schedulerLock s).setContext c .yield).setState c .ready).priority y
    = s.priority y := by
  rw [setState_priority,(alike_setContext _ c .yield).priority,(alike_lock s).priority]

theorem Line.requeue (h : Line s (.ready (s.priority c)) xs) (hc : c ∉ xs) :
    Line (requeued s c) (.ready (s.priority c)) (c::xs) := by
  rw [requeued,taskAddToReady,parked_priority]
  exact Line.setState ((line_parked h).add hc) c .ready

theorem Line.requeue_other (h : Line s (.ready p) xs) (hp : s.priority c ≠ p) (hc : c ∉ xs)
    (hhead : ∀ y ∈ xs, s.heads (.ready (s.priority c)) ≠ some y) :
    Line (requeued s c) (.ready p) xs := by
  rw [requeued,taskAddToReady,parked_priority]
  refine Line.setState ((line_parked h).add_other (by simpa using hp) hc fun y hy => ?_) c .ready
  have hsame : (((schedulerLock s).setContext c .yield).setState c .ready).heads = s.heads :=
    (alike_lock s).heads
  rw [hsame]
  exact hhead y hy

theorem requeued_state (hc : c ≠ t) : (requeued s c).state t = s.state t :=
  (keeps_requeued s c).state t hc

/-- A yield, and a `scheduler_step` of main. -/
def turn (s : Sched) : Sched :=
  if s.current = s.main then (schedulerStep s).getD s else taskYield s

theorem turn_steady (h : Steady s live fun _ => True) : Steady (turn s) live fun _ => True := by
  rw [turn]
  split_ifs
  · exact schedulerStep_getD_steady h (.inr fun _ => trivial)
  · exact taskYield_steady h

def Topmost (s : Sched) (live : TaskId → Bool) (p : Priority) : Prop :=
  ∀ t, live t = true → s.state t = .ready → s.priority t ≤ p

/-- `a` runs, `b` is the first that waits at its priority. -/
structure Alternating (live : TaskId → Bool) (p : Priority) (a b : TaskId) (rest : List TaskId)
    (s : Sched) : Prop where
  steady : Steady s live fun _ => True
  current : s.current = some a
  task : some a ≠ s.main
  priority : s.priority a = p
  line : Line s (.ready p) (b::rest)
  top : Topmost s live p

theorem alternating_switch (hs : Steady (contextSwitch s a) live fun _ => True)
    (hm : some a ≠ s.main) (ha : s.priority a = p) (hline : Line s (.ready p) (xs++a::ys))
    (hq : xs++ys = b::rest) (htop : Topmost s live p) :
    Alternating live p a b rest (contextSwitch s a) := by
  have htouch := touches_contextSwitch s a
  have hcur := contextSwitch_current hm
  have hmain : some a ≠ (contextSwitch s a).main := htouch.main▸hm
  subst ha
  refine ⟨hs,hcur,hmain,contextSwitch_priority hm a,hq▸hline.contextSwitch hm,fun t ht hr => ?_⟩
  have hta : ¬some a = some t := by
    rintro ⟨⟩
    simp [(hs.current_live hcur hmain).2.1] at hr
  have htm : ¬s.main = some t := fun e => hs.ne_main ht (htouch.main▸e.symm)
  have hdata := htouch.data t (not_or.mpr ⟨htm,hta⟩)
  rw [contextSwitch_priority hm]
  exact htop t ht ((congrArg (·.1) hdata).symm.trans hr)

theorem mem_line (h : Steady s live lost) (hl : Line s i xs) (hx : x ∈ xs) :
    home s live x = some i :=
  ((h.threads.queue_spec i).2 x).mp (hl.queue_eq▸hx)

theorem nextToRun_line (h : Steady s live lost) (hl : Line s (.ready p) (b::rest))
    (hp : p ≠ prioIdle) (htop : Topmost s live p) : nextToRun s = some b := by
  refine nextToRun_eq h.toSettled (Linked.head_eq hl) hp fun t q ht => ?_
  obtain ⟨-,hlive,hr,rfl⟩ := home_ready ht
  exact htop t hlive hr

theorem requeued_topmost (htop : Topmost s live p) (hc : s.priority c ≤ p) :
    Topmost (requeued s c) live p := by
  intro t ht hr
  rw [requeued_priority]
  by_cases hct : c = t
  · exact hct▸hc
  · exact htop t ht ((requeued_state hct).symm.trans hr)

theorem Alternating.turn (h : Alternating live p a b rest s) (hp : p ≠ prioIdle) :
    Alternating live p b a rest (turn s) := by
  have hnext := nextToRun_line h.steady h.line hp h.top
  have hb := home_ready (mem_line h.steady h.line mem_cons_self)
  have heq : Scheduler.turn s = contextSwitch (requeued s a) b := by
    have hne : ¬s.current = s.main := fun e => h.task (h.current.symm.trans e)
    rw [Scheduler.turn,if_neg hne,taskYield_task h.steady h.current h.task,hnext]
    rfl
  have hfresh : a ∉ b::rest := by
    intro hmem
    have hhome := mem_line h.steady h.line hmem
    simp [(h.steady.current_live h.current h.task).2.2] at hhome
  have hline : Line (requeued s a) (.ready p) ([a]++b::rest) := by
    have hl := h.line
    rw [←h.priority] at hl ⊢
    exact hl.requeue hfresh
  rw [heq]
  refine alternating_switch (heq▸turn_steady h.steady) ((keeps_requeued s a).main▸hb.1)
    ((requeued_priority s a b).trans hb.2.2.2) hline rfl ?_
  exact requeued_topmost h.top (le_of_eq h.priority)

def Runnable (s : Sched) (live : TaskId → Bool) (t : TaskId) : Prop :=
  live t = true ∧ (s.state t = .ready ∨ s.current = some t)
  deriving Decidable

def runnableAt (s : Sched) (live : TaskId → Bool) (p : Priority) : Finset TaskId :=
  Finset.univ.filter fun t => Runnable s live t ∧ s.priority t = p

theorem mem_runnableAt (h : Steady s live lost) : t ∈ runnableAt s live p ↔
    t ∈ queue s (.ready p) ∨ (live t = true ∧ s.current = some t ∧ s.priority t = p) := by
  rw [runnableAt,Finset.mem_filter,Runnable,(h.threads.queue_spec _).2 t]
  constructor
  · rintro ⟨-,⟨hl,hr | hc⟩,hp⟩
    · exact .inl ((home_live (h.ne_main hl) hl).trans (by rw [hr,hp]))
    · exact .inr ⟨hl,hc,hp⟩
  · rintro (hh | ⟨hl,hc,hp⟩)
    · obtain ⟨-,hl,hr,hp⟩ := home_ready hh
      exact ⟨Finset.mem_univ t,⟨hl,.inl hr⟩,hp⟩
    · exact ⟨Finset.mem_univ t,⟨hl,.inr hc⟩,hp⟩

section

variable (h : Steady s live fun _ => True) (hlast : s.lastSwitched = none) (hst : s.started = true)
  (hp : p ≠ prioIdle)
include h hlast hst hp

theorem first_turn (hline : Line s (.ready p) (a::b::rest)) (htop : Topmost s live p) (hlow : ∀
    c, live c = true → s.current = some c → s.priority c ≠ p ∧ s.priority c ≤ p) : Alternating
    live p a b rest (turn s) := by
  have hnext := nextToRun_line h hline hp htop
  have ha := home_ready (mem_line h hline mem_cons_self)
  have hs := turn_steady h
  by_cases hc : s.current = s.main
  · have heq : turn s = contextSwitch (s.setSleepUntil s.sleepUntil) a := by
      rw [turn,if_pos hc,schedulerStep,if_neg (by simp [hst]),hnext]
      simp [hlast,hc]
    have hline' : Line (s.setSleepUntil s.sleepUntil) (.ready p) ([]++a::b::rest) := hline
    rw [heq] at hs ⊢
    exact alternating_switch hs ha.1 ha.2.2.2 hline' rfl htop
  · obtain ⟨c,hcc,hl,-⟩ := h.current.resolve_left hc
    have hm := h.ne_main hl
    obtain ⟨hpc,hle⟩ := hlow c hl hcc
    have heq : turn s = contextSwitch (requeued s c) a := by
      rw [turn,if_neg hc,taskYield_task h hcc hm,hnext]
      rfl
    have hfresh : c ∉ a::b::rest := by
      intro hmem
      have hhome := mem_line h hline hmem
      simp [(h.current_live hcc hm).2.2] at hhome
    have hline' : Line (requeued s c) (.ready p) ([]++a::b::rest) := by
      refine hline.requeue_other hpc hfresh fun y hy hhead => hpc ?_
      simpa [mem_line h hline hy] using (h.head_home hhead).symm
    rw [heq] at hs ⊢
    exact alternating_switch hs ((keeps_requeued s c).main▸ha.1)
      ((requeued_priority s c a).trans ha.2.2.2) hline' rfl (requeued_topmost htop hle)

/-- Two of the runnable tasks alternate after at most one turn. -/
theorem exists_alternating (hmax : ∀ t, Runnable s live t → s.priority t ≤ p) (hk : 2 ≤
    (runnableAt s live p).card) : ∃ d a b rest, d ≤ 1 ∧ Alternating live p a b rest (turn^[d] s)
    ∧ runnableAt s live p = (a::b::rest).toFinset ∧ (a::b::rest).Nodup := by
  have hline := h.threads.line (.ready p)
  have hnodup := Segment.nodup hline
  have htop : Topmost s live p := fun t ht hr => hmax t ⟨ht,.inl hr⟩
  by_cases hcur : ∃ a, live a = true ∧ s.current = some a ∧ s.priority a = p
  · obtain ⟨a,hl,hc,ha⟩ := hcur
    have hm := h.ne_main hl
    have hfresh : a ∉ queue s (.ready p) := by
      intro hmem
      have hhome := mem_line h hline hmem
      simp [(h.current_live hc hm).2.2] at hhome
    have hset : runnableAt s live p = (a::queue s (.ready p)).toFinset := by
      ext t
      rw [mem_runnableAt h,List.mem_toFinset,mem_cons]
      constructor
      · rintro (hq | ⟨-,ht,-⟩)
        · exact .inr hq
        · exact .inl (some.inj (ht.symm.trans hc))
      · rintro (rfl | hq)
        · exact .inr ⟨hl,hc,ha⟩
        · exact .inl hq
    have hnd := nodup_cons.mpr ⟨hfresh,hnodup⟩
    rw [hset,toFinset_card_of_nodup hnd] at hk
    cases hq : queue s (.ready p) with
    | nil => simp [hq] at hk
    | cons b rest =>
      rw [hq] at hline hset hnd
      exact ⟨0,a,b,rest,by omega,⟨h,hc,hm,ha,hline,htop⟩,hset,hnd⟩
  · have hset : runnableAt s live p = (queue s (.ready p)).toFinset := by
      ext t
      rw [mem_runnableAt h,List.mem_toFinset,or_iff_left fun hc => hcur ⟨t,hc⟩]
    rw [hset,toFinset_card_of_nodup hnodup] at hk
    match hq : queue s (.ready p) with
    | [] => simp [hq] at hk
    | [_] => simp [hq] at hk
    | a::b::rest =>
      rw [hq] at hline hset hnodup
      exact ⟨1,a,b,rest,le_refl 1,first_turn h hlast hst hp hline htop fun c hl hc =>
        ⟨fun hpc => hcur ⟨c,hl,hc,hpc⟩,hmax c ⟨hl,.inr hc⟩⟩,hset,hnodup⟩

end

def dispatched (s : Sched) (i : ℕ) : Option TaskId := (turn^[i+1] s).current

/-- Between two dispatches of one task every other one is dispatched. -/
def RoundRobin (s : Sched) (ts : Finset TaskId) : Prop :=
  ∀ i j x y, i < j → x ∈ ts → y ∈ ts → y ≠ x → dispatched s i = some x → dispatched s j = some x →
    (∀ l, i < l → l < j → dispatched s l ≠ some x) → ∃ l, i < l ∧ l < j ∧ dispatched s l = some y

theorem alternating_iterate (h : Alternating live p a b rest s) (hp : p ≠ prioIdle) : (turn^[n]
    s).current = if n%2 = 0 then some a else some b := by
  induction n generalizing s a b with
  | zero => simpa using h.current
  | succ n ih =>
    rw [Function.iterate_succ_apply,ih (h.turn hp)]
    rcases Nat.mod_two_eq_zero_or_one n with hn | hn
    · simp [hn,Nat.add_mod]
    · simp [hn,Nat.add_mod]

theorem dispatched_eq (hd : d ≤ 1) (h : Alternating live p a b rest (turn^[d] s)) (hp : p ≠
    prioIdle) (i : ℕ) : dispatched s i = if (i+1-d)%2 = 0 then some a else some b := by
  rw [←alternating_iterate h hp,←Function.iterate_add_apply,dispatched]
  congr 2
  omega

theorem roundRobin_two (hd : ∀ i, dispatched s i = if (i+k)%2 = 0 then some a else some b) :
    RoundRobin s [a,b].toFinset := by
  intro i j x y hij hx hy hyx hi hj _
  simp only [List.mem_toFinset,mem_cons,not_mem_nil,or_false] at hx hy
  have hother : dispatched s (i+1) = some y := by
    rw [hd] at hi ⊢
    by_cases he : (i+k)%2 = 0
    · rw [if_pos he] at hi
      obtain rfl := some.inj hi
      rw [if_neg (by omega),hy.resolve_left hyx]
    · rw [if_neg he] at hi
      obtain rfl := some.inj hi
      rw [if_pos (by omega),hy.resolve_right hyx]
  have hne : i+1 ≠ j := by
    rintro rfl
    exact hyx (some.inj (hother.symm.trans hj))
  exact ⟨i+1,by omega,by omega,hother⟩

theorem not_roundRobin (hab : a ≠ b) (hd : ∀ i, dispatched s i = if (i+k)%2 = 0 then some a else
    some b) (hca : c ≠ a) (hcb : c ≠ b) (ha : a ∈ ts) (hc : c ∈ ts) : ¬RoundRobin s ts := by
  intro h
  have hk : dispatched s k = some a := by rw [hd,if_pos (by omega)]
  have hk' : dispatched s (k+2) = some a := by rw [hd,if_pos (by omega)]
  obtain ⟨l,-,-,hl⟩ := h k (k+2) a c (by omega) ha hc hca hk hk' fun l hl hl' => by
    rw [hd,if_neg (by omega)]
    exact fun e => hab (some.inj e).symm
  rw [hd] at hl
  split_ifs at hl
  · exact hca (some.inj hl).symm
  · exact hcb (some.inj hl).symm

theorem dispatched_unstarted (h : Steady s live lost) (hst : s.started = false) (i : ℕ) :
    dispatched s i = s.main := by
  have hc := h.starting hst
  have hturn : turn s = s := by
    rw [turn,if_pos hc,schedulerStep,if_pos hst]
    rfl
  rw [dispatched,Function.iterate_fixed hturn,hc]

/-- Tasks that only yield take turns exactly when there are two of them. -/
theorem round_robin_iff (h : Reachable m) (hp : p ≠ prioIdle)
    (hmax : ∀ t, Runnable m.sched m.live t → m.sched.priority t ≤ p)
    (hk : 2 ≤ (runnableAt m.sched m.live p).card) :
    RoundRobin m.sched (runnableAt m.sched m.live p) ↔
      (runnableAt m.sched m.live p).card = 2 ∨ m.sched.started = false := by
  obtain ⟨hs,hlast⟩ := h.spec
  by_cases hst : m.sched.started = false
  · refine iff_of_true (fun i j x y hij hx _ _ hi => ?_) (.inr hst)
    rw [dispatched_unstarted hs hst] at hi
    exact absurd hi.symm (hs.ne_main (Finset.mem_filter.mp hx).2.1.1)
  · obtain ⟨d,a,b,rest,hd,halt,hset,hnodup⟩ :=
      exists_alternating hs hlast (by simpa using hst) hp hmax hk
    have hdisp (i : ℕ) : dispatched m.sched i = if (i+(1-d))%2 = 0 then some a else some b := by
      rw [dispatched_eq hd halt hp,Nat.add_sub_assoc hd]
    have hab : a ≠ b := fun e => by simp [e] at hnodup
    rw [or_iff_left hst,hset,toFinset_card_of_nodup hnodup]
    cases rest with
    | nil => exact iff_of_true (roundRobin_two hdisp) rfl
    | cons c rest =>
      refine iff_of_false (not_roundRobin (c:=c) hab hdisp ?_ ?_ (by simp) (by simp)) (by simp)
      · rintro rfl
        simp at hnodup
      · rintro rfl
        simp at hnodup

def threeEqual : List Op := [.call (.create 2 true true),.call (.create 2 true true),
  .call (.create 2 true true),.call .start]

def twoEqual : List Op :=
  [.call (.create 2 true true),.call (.create 2 true true),.call .start]

theorem round_robin_two : RoundRobin (after act (powerOn booted) twoEqual).sched {4,5} := by
  have hset : runnableAt (after act (powerOn booted) twoEqual).sched
      (after act (powerOn booted) twoEqual).live 2 = {4,5} := by decide +kernel
  have hreach : Reachable (after act (powerOn booted) twoEqual) :=
    ⟨true,true,booted,twoEqual,schedulerInit_booted,by decide +kernel,rfl⟩
  rw [←hset]
  exact (round_robin_iff hreach (by decide) (by decide +kernel) (by decide +kernel)).mpr
    (by decide +kernel)

/-- The first of the three tasks is not dispatched between two dispatches of the last. -/
theorem yield_starves_third :
    Each act Permitted (powerOn booted) threeEqual ∧
      runnableAt (after act (powerOn booted) threeEqual).sched
        (after act (powerOn booted) threeEqual).live 2 = {3,4,5} ∧
      ¬RoundRobin (after act (powerOn booted) threeEqual).sched {3,4,5} := by
  refine ⟨by decide +kernel,by decide +kernel,fun h => ?_⟩
  obtain ⟨l,hl,hl',he⟩ := h 0 2 4 5 (by decide) (by decide) (by decide) (by decide)
    (by decide +kernel) (by decide +kernel) fun l hl hl' => by
      obtain rfl : l = 1 := by omega
      decide +kernel
  obtain rfl : l = 1 := by omega
  revert he
  decide +kernel

end TinyDeviceOs.Scheduler
